import ClockNet.Proofs.NameMaps

/-! # The order of ports

Positions may be stale before a module is renumbered: some repeat, some are missing, and some belong
to wires that are no ports any more. Renumbering puts the ports in the one order that positions and
then names give (`renumbered_iff`), and counts them. From then on the positions alone decide, so
that neither renumbering again nor doing so under other names changes anything
(`PortsNumbered.of_renamed`). -/

namespace ClockNet

namespace Wire
variable {a b : Wire}

/-- The order of ports: those with a position come first and go by position, equal positions and
missing ones go by name. -/
inductive Precedes (a b : Wire) : Prop where
  | placed (ha : a.position ≠ 0) (hb : b.position = 0)
  | earlier (ha : a.position ≠ 0) (h : a.position < b.position)
  | named (h : a.position = b.position) (hn : a.name < b.name)

theorem Precedes.asymm (h : a.Precedes b) : ¬ b.Precedes a := by
  intro h'
  cases h with
  | placed ha hb =>
    cases h' with
    | placed hb' _ => exact hb' hb
    | earlier hb' _ => exact hb' hb
    | named h _ => exact ha (h ▸ hb)
  | earlier ha h =>
    cases h' with
    | placed _ ha' => exact ha ha'
    | earlier _ h' => omega
    | named h' _ => omega
  | named h hn =>
    cases h' with
    | placed hb ha => exact hb (h ▸ ha)
    | earlier _ h' => omega
    | named _ hn' => exact lt_asymm hn hn'

theorem Precedes.of_comesBefore (h : a.comesBefore b = true) (hn : a.name ≠ b.name) :
    a.Precedes b := by
  obtain ⟨h₁, h₂, h₃⟩ := (comesBefore_iff a b).mp h
  by_cases hb : b.position = 0
  · by_cases ha : a.position = 0
    · exact .named (ha.trans hb.symm) (lt_of_le_of_ne (h₃ ha hb) hn)
    · exact .placed ha hb
  · have ha : a.position ≠ 0 := fun ha => hb (h₁ ha)
    rcases h₂ hb with hlt | ⟨heq, hle⟩
    · exact .earlier ha hlt
    · exact .named heq (lt_of_le_of_ne hle hn)

end Wire

namespace Module
variable {m r : Module} {a b : WireId}

/-- What renumbering makes of a module: the wires that are inputs or outputs are listed, each once
and in the order of ports, and counted from 1 on. Nothing else is changed. -/
structure Renumbered (m r : Module) : Prop where
  nodup : r.ports.Nodup
  mem : ∀ id, id ∈ r.ports ↔
    id < m.wires.length ∧ ((m.wire id).isInput = true ∨ (m.wire id).isOutput = true)
  sorted : r.ports.Pairwise fun a b => (m.wire a).Precedes (m.wire b)
  port : ∀ i id, r.ports[i]? = some id → (r.wire id).position = i + 1
  other : ∀ id, id ∉ r.ports → (r.wire id).position = 0
  wire : ∀ id, r.wire id = { m.wire id with position := (r.wire id).position }
  length : r.wires.length = m.wires.length
  rest : r = { m with wires := r.wires, ports := r.ports }

/-- The second module is the first one up to the names of wires. -/
structure Renamed (m r : Module) : Prop where
  wire : ∀ id, r.wire id = { m.wire id with name := (r.wire id).name }
  length : r.wires.length = m.wires.length
  rest : r = { m with wires := r.wires }

/-! ## The one order -/

theorem precedes_sortedPorts (hn : (m.wires.map (·.name)).Nodup) :
    m.sortedPorts.Pairwise fun a b => (m.wire a).Precedes (m.wire b) := by
  refine (m.pairwise_sortedPorts.and m.nodup_sortedPorts).imp_of_mem ?_
  rintro a b ha hb ⟨hab, hne⟩
  refine .of_comesBefore hab fun he => hne ?_
  exact wire_inj_of_name hn (lt_of_isPort (mem_sortedPorts.mp ha))
    (lt_of_isPort (mem_sortedPorts.mp hb)) he

theorem renumbered_renumberPorts (hn : (m.wires.map (·.name)).Nodup) :
    Renumbered m m.renumberPorts where
  nodup := m.nodup_sortedPorts
  mem id := by
    rw [renumberPorts_ports, mem_sortedPorts]
    refine ⟨fun h => ⟨lt_of_isPort h, ?_⟩, fun h => ?_⟩
    · exact (Bool.or_eq_true _ _).mp h
    · exact (Bool.or_eq_true _ _).mpr h.2
  sorted := precedes_sortedPorts hn
  port i id h := by
    rw [renumberPorts_ports] at h
    obtain ⟨hi, rfl⟩ := List.getElem?_eq_some_iff.mp h
    rw [position_renumberPorts (List.getElem_mem hi), m.nodup_sortedPorts.idxOf_getElem]
  other id h := by
    rw [renumberPorts_ports, mem_sortedPorts] at h
    rw [wire_renumberPorts, if_neg h]
  wire id := by rw [wire_renumberPorts]
  length := length_renumberPorts m
  rest := rfl

/-- The order leaves no choice. -/
theorem Renumbered.unique (h : Renumbered m r) {r' : Module} (h' : Renumbered m r') : r = r' := by
  have hports : r.ports = r'.ports := by
    have hperm := (List.perm_ext_iff_of_nodup h.nodup h'.nodup).mpr fun id =>
      (h.mem id).trans (h'.mem id).symm
    refine List.Perm.eq_of_pairwise ?_ h.sorted h'.sorted hperm
    intro a b _ _ hab hba
    exact absurd hba hab.asymm
  have hposition : ∀ id, (r.wire id).position = (r'.wire id).position := by
    intro id
    by_cases hid : id ∈ r.ports
    · obtain ⟨i, hi⟩ := List.getElem?_of_mem hid
      rw [h.port i id hi, h'.port i id (hports ▸ hi)]
    · rw [h.other id hid, h'.other id (hports ▸ hid)]
  rw [h.rest, h'.rest]
  refine ext_wire rfl rfl (h.length.trans h'.length.symm) (fun id => ?_) rfl rfl hports rfl
  show r.wire id = r'.wire id
  rw [h.wire, h'.wire, hposition]

theorem renumbered_iff (hn : (m.wires.map (·.name)).Nodup) :
    Renumbered m r ↔ r = m.renumberPorts :=
  ⟨fun h => h.unique (renumbered_renumberPorts hn), fun h => h ▸ renumbered_renumberPorts hn⟩

theorem Renumbered.position_lt (h : Renumbered m r) (ha : a ∈ r.ports) (hb : b ∈ r.ports)
    (hab : (m.wire a).Precedes (m.wire b)) : (r.wire a).position < (r.wire b).position := by
  obtain ⟨i, hi, rfl⟩ := List.getElem_of_mem ha
  obtain ⟨j, hj, rfl⟩ := List.getElem_of_mem hb
  rw [h.port i _ (List.getElem?_eq_getElem hi), h.port j _ (List.getElem?_eq_getElem hj)]
  have hsorted := List.pairwise_iff_getElem.mp h.sorted
  rcases Nat.lt_trichotomy i j with hlt | rfl | hgt
  · omega
  · exact absurd hab hab.asymm
  · exact absurd hab (hsorted j i hj hi hgt).asymm

/-! ## Other names -/

theorem Renamed.isPort (h : Renamed m r) (id : WireId) :
    (r.wire id).isPort = (m.wire id).isPort := by
  rw [h.wire]
  rfl

theorem Renamed.position (h : Renamed m r) (id : WireId) :
    (r.wire id).position = (m.wire id).position := by
  rw [h.wire]

theorem renamed_swapNames (m : Module) (a b : WireId) : Renamed m (m.swapNames a b) where
  wire id := by
    unfold swapNames
    simp only [wire_modifyWire]
    split <;> split <;> rfl
  length := length_swapNames m a b
  rest := rfl

/-- Ports that are numbered along the port list stay so under other names. -/
theorem PortsNumbered.of_renamed (h : m.PortsNumbered) (hr : Renamed m r) : r.PortsNumbered := by
  have hports : r.ports = m.ports := (congrArg Module.ports hr.rest :)
  obtain ⟨hnodup, hlt, hwire⟩ := portsNumbered_iff.mp h
  refine portsNumbered_iff.mpr ⟨hports ▸ hnodup, ?_, ?_⟩
  · rw [hports, hr.length]
    exact hlt
  · rw [hports, hr.length]
    intro id hid
    rw [hr.isPort, hr.position]
    exact hwire id hid

/-! ## Renumbering -/

/-- Whatever flags and positions the wires of a module have, renumbering gives the one module that
has its ports in order and all else unchanged. Ports with different positions keep their order, and
renumbering again changes nothing, also if wires have been renamed. -/
theorem renumbering_canonical (hn : (m.wires.map (·.name)).Nodup) :
    (∀ r, Renumbered m r ↔ r = m.renumberPorts) ∧
    (∀ a ∈ m.renumberPorts.ports, ∀ b ∈ m.renumberPorts.ports, (m.wire a).position ≠ 0 →
      (m.wire b).position ≠ 0 → (m.wire a).position ≠ (m.wire b).position →
      ((m.renumberPorts.wire a).position < (m.renumberPorts.wire b).position ↔
        (m.wire a).position < (m.wire b).position)) ∧
    m.renumberPorts.renumberPorts = m.renumberPorts ∧
    ∀ r, Renamed m.renumberPorts r → r.renumberPorts = r := by
  have hr := renumbered_renumberPorts hn
  refine ⟨fun r => renumbered_iff hn, ?_, renumberPorts_renumberPorts m, ?_⟩
  · intro a ha b hb hpa hpb hne
    constructor
    · intro hlt
      by_contra hge
      have hba := hr.position_lt hb ha (.earlier hpb (by omega))
      omega
    · exact fun hlt => hr.position_lt ha hb (.earlier hpa hlt)
  · exact fun r hrenamed => PortsNumbered.of_renamed (renumberPorts_renumberPorts m) hrenamed

/-- Two ports share a position, two have none, and a wire that is no port has one. -/
def stalePositions : Module :=
  { name := "top"
    wires := [{ name := "y", width := 1, isOutput := true },
              { name := "z", width := 2, isInput := true, position := 4 },
              { name := "n", width := 1, position := 1 },
              { name := "a", width := 1, isInput := true, isOutput := true },
              { name := "c", width := 1, isOutput := true, position := 4 },
              { name := "b", width := 1, isInput := true, position := 9 }]
    ports := [2] }

/-- The last two ports are in the order of their names, and stay there when they exchange them. -/
theorem renumbering_canonical_stalePositions :
    stalePositions.renumberPorts.ports = [4, 1, 5, 3, 0] ∧
    stalePositions.renumberPorts.wires.map (·.position) = [5, 2, 0, 4, 1, 3] ∧
    Renumbered stalePositions stalePositions.renumberPorts ∧
    (stalePositions.renumberPorts.wire 1).position <
      (stalePositions.renumberPorts.wire 5).position ∧
    stalePositions.renumberPorts.renumberPorts = stalePositions.renumberPorts ∧
    (stalePositions.renumberPorts.swapNames 0 3).renumberPorts =
      stalePositions.renumberPorts.swapNames 0 3 := by
  obtain ⟨hiff, horder, hagain, hrenamed⟩ := renumbering_canonical (m := stalePositions) (by decide)
  have hports : stalePositions.renumberPorts.ports = [4, 1, 5, 3, 0] := by cbv
  refine ⟨hports, by cbv, (hiff _).mpr rfl, ?_, hagain, hrenamed _ (renamed_swapNames _ 0 3)⟩
  refine (horder 1 ?_ 5 ?_ (by decide) (by decide) (by decide)).mpr (by decide)
  · rw [hports]
    decide
  · rw [hports]
    decide

end Module

end ClockNet

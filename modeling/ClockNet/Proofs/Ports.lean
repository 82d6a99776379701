import ClockNet.Proofs.Naming

/-! # Port lists

Renumbering gives a module the one port list that its flags, positions and names determine.
Ports that are already numbered along a list keep that list (`sortedPorts_eq`), so renumbering
twice is renumbering once, and a module whose ports are exchanged for wires of the same shape
and position keeps its ports, position by position (`ports_of_exchange`). -/

namespace ClockNet

namespace Wire

theorem comesBefore_iff (a b : Wire) : a.comesBefore b = true ↔
    (a.position = 0 → b.position = 0) ∧
      (b.position ≠ 0 → a.position < b.position ∨ a.position = b.position ∧ a.name ≤ b.name) ∧
      (a.position = 0 → b.position = 0 → a.name ≤ b.name) := by
  unfold comesBefore
  by_cases ha : a.position = 0
  · by_cases hb : b.position = 0
    · simp [ha, hb]
    · simp [ha, hb]
  · by_cases hb : b.position = 0
    · simp [ha, hb]
    · simp [ha, hb]

theorem comesBefore_trans (a b c : Wire) (hab : a.comesBefore b = true)
    (hbc : b.comesBefore c = true) : a.comesBefore c = true := by
  rw [comesBefore_iff] at *
  obtain ⟨h₁, h₂, h₃⟩ := hab
  obtain ⟨k₁, k₂, k₃⟩ := hbc
  refine ⟨fun h => k₁ (h₁ h), fun hc => ?_, fun ha hc => ?_⟩
  · by_cases hb : b.position = 0
    · exact absurd (k₁ hb) hc
    · rcases k₂ hc with hlt | ⟨heq, hn⟩
      · rcases h₂ hb with hlt' | ⟨heq', -⟩ <;> left <;> omega
      · rcases h₂ hb with hlt' | ⟨heq', hn'⟩
        · left; omega
        · exact .inr ⟨heq'.trans heq, String.le_trans hn' hn⟩
  · exact String.le_trans (h₃ ha (h₁ ha)) (k₃ (h₁ ha) hc)

theorem comesBefore_total (a b : Wire) : (a.comesBefore b || b.comesBefore a) = true := by
  rw [Bool.or_eq_true, comesBefore_iff, comesBefore_iff]
  have hn := String.le_total a.name b.name
  by_cases ha : a.position = 0
  · by_cases hb : b.position = 0
    · simpa [ha, hb] using hn
    · right; simp [ha, hb]
  · by_cases hb : b.position = 0
    · left; simp [ha, hb]
    · rcases Nat.lt_trichotomy a.position b.position with h | h | h
      · left; simp [ha, hb, h]
      · simpa [ha, hb, h] using hn
      · right; simp [ha, hb, h]

theorem position_eq_of_comesBefore {a b : Wire} (hab : a.comesBefore b = true)
    (hba : b.comesBefore a = true) : a.position = b.position := by
  rw [comesBefore_iff] at *
  obtain ⟨h₁, h₂, -⟩ := hab
  obtain ⟨k₁, k₂, -⟩ := hba
  by_cases ha : a.position = 0
  · rw [ha, h₁ ha]
  · by_cases hb : b.position = 0
    · exact absurd (k₁ hb) ha
    · have := h₂ hb
      have := k₂ ha
      omega

theorem comesBefore_of_lt {a b : Wire} (ha : a.position ≠ 0) (h : a.position < b.position) :
    a.comesBefore b = true := by
  rw [comesBefore_iff]
  refine ⟨fun h0 => absurd h0 ha, fun _ => .inl h, fun h0 => absurd h0 ha⟩

@[simp] theorem isPort_default : (default : Wire).isPort = false := rfl

end Wire

namespace Module

/-! ## The sorted list of ports -/

theorem lt_of_isPort {m : Module} {id : WireId} (h : (m.wire id).isPort = true) :
    id < m.wires.length := by
  by_contra hge
  rw [wire_eq_default (Nat.le_of_not_lt hge)] at h
  cases h

theorem mem_sortedPorts {m : Module} {id : WireId} :
    id ∈ m.sortedPorts ↔ (m.wire id).isPort = true := by
  unfold sortedPorts wireIds
  rw [List.mem_mergeSort, List.mem_filter, List.mem_range]
  exact and_iff_right_of_imp lt_of_isPort

theorem nodup_sortedPorts (m : Module) : m.sortedPorts.Nodup := by
  refine (List.mergeSort_perm _ _).nodup_iff.mpr (List.Nodup.filter _ ?_)
  exact List.nodup_range

theorem pairwise_sortedPorts (m : Module) :
    m.sortedPorts.Pairwise fun a b => (m.wire a).comesBefore (m.wire b) = true := by
  refine List.pairwise_mergeSort ?_ ?_ _
  · intro a b c
    exact Wire.comesBefore_trans _ _ _
  · intro a b
    exact Wire.comesBefore_total _ _

/-- Ports that are numbered along a list without repetition are sorted as that list. -/
theorem sortedPorts_eq {m : Module} {l : List WireId} (hn : l.Nodup)
    (hmem : ∀ id, id ∈ l ↔ (m.wire id).isPort = true)
    (hpos : ∀ id ∈ l, (m.wire id).position = l.idxOf id + 1) : m.sortedPorts = l := by
  have hperm : m.sortedPorts.Perm l :=
    (List.perm_ext_iff_of_nodup m.nodup_sortedPorts hn).mpr fun id =>
      mem_sortedPorts.trans (hmem id).symm
  refine List.Perm.eq_of_pairwise ?_ m.pairwise_sortedPorts ?_ hperm
  · intro a b ha hb hab hba
    have he := Wire.position_eq_of_comesBefore hab hba
    rw [hpos a (hperm.mem_iff.mp ha), hpos b hb] at he
    exact (List.idxOf_inj (hperm.mem_iff.mp ha)).mp (Nat.succ.inj he)
  · rw [List.pairwise_iff_getElem]
    intro i j hi hj hij
    refine Wire.comesBefore_of_lt ?_ ?_
    · rw [hpos _ (List.getElem_mem hi)]; exact Nat.succ_ne_zero _
    · rw [hpos _ (List.getElem_mem hi), hpos _ (List.getElem_mem hj), hn.idxOf_getElem,
        hn.idxOf_getElem]
      omega

/-! ## Renumbering -/

@[simp] theorem renumberPorts_ports (m : Module) : m.renumberPorts.ports = m.sortedPorts := rfl

@[simp] theorem length_renumberPorts (m : Module) :
    m.renumberPorts.wires.length = m.wires.length := List.length_mapIdx

/-- Renumbering changes positions only: ports are counted from 1, other wires have none. -/
theorem wire_renumberPorts (m : Module) (id : WireId) :
    m.renumberPorts.wire id = { m.wire id with
      position := if (m.wire id).isPort then m.sortedPorts.idxOf id + 1 else 0 } := by
  by_cases h : id < m.wires.length
  · rw [wire_eq_getElem (by simpa using h), wire_eq_getElem h]
    exact List.getElem_mapIdx
  · have hle := Nat.le_of_not_lt h
    rw [wire_eq_default hle, wire_eq_default (by simpa using hle)]
    rfl

@[simp] theorem isPort_wire_renumberPorts (m : Module) (id : WireId) :
    (m.renumberPorts.wire id).isPort = (m.wire id).isPort := by
  rw [wire_renumberPorts]
  rfl

theorem position_renumberPorts {m : Module} {id : WireId} (h : id ∈ m.sortedPorts) :
    (m.renumberPorts.wire id).position = m.sortedPorts.idxOf id + 1 := by
  rw [wire_renumberPorts, if_pos (mem_sortedPorts.mp h)]

theorem sortedPorts_renumberPorts (m : Module) : m.renumberPorts.sortedPorts = m.sortedPorts :=
  sortedPorts_eq m.nodup_sortedPorts
    (fun id => by rw [isPort_wire_renumberPorts]; exact mem_sortedPorts)
    fun _ h => position_renumberPorts h

theorem ext_wire {m m' : Module} (hname : m.name = m'.name) (hattr : m.attributes = m'.attributes)
    (hlen : m.wires.length = m'.wires.length) (hwire : ∀ id, m.wire id = m'.wire id)
    (hcells : m.cells = m'.cells) (hconn : m.connections = m'.connections)
    (hports : m.ports = m'.ports) (hnext : m.nextNumber = m'.nextNumber) : m = m' := by
  have hw : m.wires = m'.wires := by
    refine List.ext_getElem hlen fun id h h' => ?_
    rw [← wire_eq_getElem h, ← wire_eq_getElem h', hwire]
  cases m
  cases m'
  simp_all

theorem renumberPorts_renumberPorts (m : Module) :
    m.renumberPorts.renumberPorts = m.renumberPorts := by
  refine ext_wire rfl rfl (length_renumberPorts _) (fun id => ?_) rfl rfl
    (sortedPorts_renumberPorts m) rfl
  rw [wire_renumberPorts, isPort_wire_renumberPorts, sortedPorts_renumberPorts,
    wire_renumberPorts]

/-- The port list is the one that the flags, positions and names of the wires give. -/
def PortsNumbered (m : Module) : Prop := m.renumberPorts = m

theorem PortsNumbered.ports {m : Module} (h : m.PortsNumbered) : m.ports = m.sortedPorts :=
  (congrArg Module.ports h).symm

theorem PortsNumbered.position {m : Module} (h : m.PortsNumbered) {id : WireId}
    (hid : id ∈ m.ports) : (m.wire id).position = m.ports.idxOf id + 1 := by
  have hs := h.ports
  rw [hs] at hid ⊢
  have hp := position_renumberPorts hid
  rwa [h] at hp

theorem PortsNumbered.mem {m : Module} (h : m.PortsNumbered) {id : WireId} :
    id ∈ m.ports ↔ (m.wire id).isPort = true := by
  rw [h.ports]
  exact mem_sortedPorts

/-- A port list is in order if it has the ports, each once, and they are numbered along it. -/
theorem portsNumbered_iff {m : Module} : m.PortsNumbered ↔ m.ports.Nodup ∧
    (∀ id ∈ m.ports, id < m.wires.length) ∧ ∀ id < m.wires.length,
      (id ∈ m.ports ↔ (m.wire id).isPort = true) ∧
      (m.wire id).position = if (m.wire id).isPort then m.ports.idxOf id + 1 else 0 := by
  constructor
  · intro h
    refine ⟨?_, ?_, ?_⟩
    · rw [h.ports]
      exact m.nodup_sortedPorts
    · exact fun id hid => lt_of_isPort (h.mem.mp hid)
    · intro id _
      have hw := congrArg (fun m : Module => (m.wire id).position) h
      refine ⟨h.mem, ?_⟩
      rw [h.ports, ← hw, wire_renumberPorts]
  · intro h
    obtain ⟨hn, hlt, hwire⟩ := h
    have hmem : ∀ id, id ∈ m.ports ↔ (m.wire id).isPort = true := by
      intro id
      by_cases hid : id < m.wires.length
      · exact (hwire id hid).1
      · rw [wire_eq_default (Nat.le_of_not_lt hid)]
        exact iff_of_false (fun hmem => hid (hlt id hmem)) (by simp)
    have hs : m.sortedPorts = m.ports := by
      refine sortedPorts_eq hn hmem ?_
      intro id hid
      rw [(hwire id (hlt id hid)).2, if_pos ((hmem id).mp hid)]
    refine ext_wire rfl rfl (length_renumberPorts m) ?_ rfl rfl hs rfl
    intro id
    rw [wire_renumberPorts, hs]
    by_cases hid : id < m.wires.length
    · rw [← (hwire id hid).2]
    · rw [wire_eq_default (Nat.le_of_not_lt hid)]
      rfl

instance (m : Module) : Decidable m.PortsNumbered := decidable_of_iff _ portsNumbered_iff.symm

/-! ## Exchanging ports -/

section Exchange
variable {m r : Module} {f : WireId → WireId}

/-- If wires of another module stand for the ports, with the same shape and position, then
its port list after renumbering is theirs, in the same order. -/
theorem sortedPorts_of_exchange (h : m.PortsNumbered)
    (hf : ∀ a ∈ m.ports, ∀ b ∈ m.ports, f a = f b → a = b)
    (hwire : ∀ id ∈ m.ports, r.wire (f id) = m.wire id)
    (hports : ∀ id, (r.wire id).isPort = true → ∃ a ∈ m.ports, f a = id) :
    r.sortedPorts = m.ports.map f := by
  have hn : m.ports.Nodup := by rw [h.ports]; exact m.nodup_sortedPorts
  have hidx : ∀ a ∈ m.ports, (m.ports.map f).idxOf (f a) = m.ports.idxOf a := by
    intro a ha
    have hlt := List.idxOf_lt_length_iff.mpr ha
    have hnf : (m.ports.map f).Nodup := List.Nodup.map_on hf hn
    have he := hnf.idxOf_getElem (m.ports.idxOf a) (by simpa using hlt)
    rwa [List.getElem_map, List.getElem_idxOf] at he
  refine sortedPorts_eq (List.Nodup.map_on hf hn) (fun id => ⟨fun hid => ?_, fun hid => ?_⟩) ?_
  · obtain ⟨a, ha, rfl⟩ := List.mem_map.mp hid
    rw [hwire a ha]
    exact h.mem.mp ha
  · obtain ⟨a, ha, rfl⟩ := hports id hid
    exact List.mem_map_of_mem ha
  · intro id hid
    obtain ⟨a, ha, rfl⟩ := List.mem_map.mp hid
    rw [hwire a ha, h.position ha, hidx a ha]

theorem ports_of_exchange (h : m.PortsNumbered)
    (hf : ∀ a ∈ m.ports, ∀ b ∈ m.ports, f a = f b → a = b)
    (hwire : ∀ id ∈ m.ports, r.wire (f id) = m.wire id)
    (hports : ∀ id, (r.wire id).isPort = true → ∃ a ∈ m.ports, f a = id) :
    r.renumberPorts.ports.map r.renumberPorts.wire = m.ports.map m.wire := by
  have hs := sortedPorts_of_exchange h hf hwire hports
  rw [renumberPorts_ports, hs, List.map_map]
  refine List.map_congr_left fun a ha => ?_
  have hp : (r.wire (f a)).isPort = true := by rw [hwire a ha]; exact h.mem.mp ha
  have hpos := position_renumberPorts (mem_sortedPorts.mpr hp)
  have hself : r.renumberPorts.wire (f a) = { m.wire a with
      position := (r.renumberPorts.wire (f a)).position } := by
    rw [wire_renumberPorts, hwire a ha]
  have hidx : r.sortedPorts.idxOf (f a) + 1 = (m.wire a).position := by
    have hn : (m.ports.map f).Nodup := hs ▸ r.nodup_sortedPorts
    have hlt := List.idxOf_lt_length_iff.mpr ha
    have he := hn.idxOf_getElem (m.ports.idxOf a) (by simpa using hlt)
    rw [List.getElem_map, List.getElem_idxOf] at he
    rw [hs, he, h.position ha]
  rw [Function.comp_apply, hself, hpos, hidx]

end Exchange

end Module

/-- The port lists of all modules are in order. -/
def Design.PortsNumbered (d : Design) : Prop := ∀ m ∈ d.modules, m.PortsNumbered

instance (d : Design) : Decidable d.PortsNumbered :=
  inferInstanceAs (Decidable (∀ m ∈ d.modules, m.PortsNumbered))

end ClockNet

import ClockNet.Proofs.Handover

/-! # The module in the end

What a finished module has in each place, in terms of the module at the start. Wires that are
not replaced stay, up to their position in the port list; a replaced port has become an internal
wire, and its copy the port; cells keep their names, and the signals of their ports are handed
over. Where the port list was in order it stays the same, port by port, so the signature of the
module does not change (`ofModule_complete`). -/

namespace ClockNet.Buffering.Insertion

section Outcome
variable {e : Scene} {s : Insertion}

theorem lt_of_mem_replaced (hs : s.Fresh) {q : WireId × WireId}
    (hq : q ∈ (s.inserted e).replaced) : q.1 < s.module.wires.length := by
  obtain ⟨-, i, hd⟩ := mem_actions_replace.mp ((fitted_inserted hs).replaced q hq).1
  exact Module.lt_of_place (mem_actions_drive.mp hd).1.place

theorem exchange_inserted (hs : s.Fresh) :
    Exchange (s.inserted e).module (s.inserted e).replaced := by
  have hf := fitted_inserted (e := e) hs
  refine ⟨?_, hf.nodup, fun q hq r hr => ?_, fun q hq => ?_, fun q hq => (hf.replaced q hq).2.2.1⟩
  · rw [replaced_inserted hs]
    exact Action.nodup_replaces e s.module
  · exact Nat.ne_of_lt (Nat.lt_of_lt_of_le (lt_of_mem_replaced hs hq) (hf.replaced r hr).2.1)
  · exact Nat.lt_of_lt_of_le (lt_of_mem_replaced hs hq) hf.grown.wires_length

/-! ## What is not touched -/

theorem complete_name (hs : s.Fresh) : (s.complete e).module.name = s.module.name := by
  rw [complete_module]
  exact (renames_rest _ _).1.trans (fitted_inserted hs).grown.name

theorem complete_attributes (hs : s.Fresh) :
    (s.complete e).module.attributes = s.module.attributes := by
  rw [complete_module]
  exact (renames_rest _ _).2.1.trans (fitted_inserted hs).grown.attributes

theorem complete_connections :
    (s.complete e).module.connections = (s.inserted e).module.connections := by
  rw [complete_module]
  exact (renames_rest _ _).2.2.2.1

/-! ## Cells -/

theorem length_complete_cells :
    (s.complete e).module.cells.length = (s.inserted e).module.cells.length := by
  rw [complete_module]
  exact List.length_mapIdx

theorem complete_cell {k : CellId} (hk : k < (s.inserted e).module.cells.length) :
    (s.complete e).module.cell k = handedCell e (s.inserted e) (s.inserted e).renamed k
      ((s.inserted e).module.cell k) := by
  rw [complete_module]
  unfold Module.cell
  dsimp only
  rw [List.getElem?_mapIdx, List.getElem?_eq_getElem hk]
  rfl

theorem complete_cell_old (hs : s.Fresh) {k : CellId} (hk : k < s.module.cells.length) :
    (s.complete e).module.cell k =
      handedCell e (s.inserted e) (s.inserted e).renamed k (s.module.cell k) := by
  have hf := fitted_inserted (e := e) hs
  rw [complete_cell (Nat.lt_of_lt_of_le hk hf.grown.cells_length), hf.grown.cell hk]

/-! ## Wires -/

theorem complete_wires : (s.complete e).module.wires = (s.inserted e).renamed.wires := by
  rw [complete_module]

theorem length_complete_wires :
    (s.complete e).module.wires.length = (s.inserted e).module.wires.length := by
  rw [complete_wires]
  unfold renamed
  rw [Module.length_renumberPorts, length_renames]

theorem complete_wire (id : WireId) : (s.complete e).module.wire id =
    (s.inserted e).renamed.wire id := by
  unfold Module.wire
  rw [complete_wires]

/-- A wire in the end is the one after the names have been handed over, at its position. -/
theorem complete_wire_renames (id : WireId) : (s.complete e).module.wire id =
    { ((s.inserted e).replaced.foldl renamePort (s.inserted e).module).wire id with
      position := ((s.complete e).module.wire id).position } := by
  rw [complete_wire]
  unfold renamed
  rw [Module.wire_renumberPorts]

theorem complete_wire_kept (hs : s.Fresh) {id : WireId} (hid : id < s.module.wires.length)
    (hr : .replace id ∉ actions e s.module) : (s.complete e).module.wire id =
      { s.module.wire id with position := ((s.complete e).module.wire id).position } := by
  have hf := fitted_inserted (e := e) hs
  have hsnd : id ∉ (s.inserted e).replaced.map Prod.snd := by
    intro hmem
    obtain ⟨q, hq, rfl⟩ := List.mem_map.mp hmem
    exact absurd (hf.replaced q hq).2.1 (Nat.not_le.mpr hid)
  have hfst : id ∉ (s.inserted e).replaced.map Prod.fst := fun hmem =>
    hr ((mem_replaced_inserted hs id).mp hmem)
  have hw := complete_wire_renames (e := e) (s := s) id
  rw [wire_renames_other (exchange_inserted hs) hfst hsnd, hf.grown.wire hid] at hw
  exact hw

theorem complete_wire_port (hs : s.Fresh) {q : WireId × WireId}
    (hq : q ∈ (s.inserted e).replaced) : (s.complete e).module.wire q.1 =
      { stripPort (s.module.wire q.1) with name := ((s.inserted e).module.wire q.2).name } := by
  have hf := fitted_inserted (e := e) hs
  rw [complete_wire]
  unfold renamed
  rw [Module.wire_renumberPorts, wire_renames_port (exchange_inserted hs) hq,
    hf.grown.wire (lt_of_mem_replaced hs hq)]
  rfl

theorem complete_wire_copy (hs : s.Fresh) {q : WireId × WireId}
    (hq : q ∈ (s.inserted e).replaced) : (s.complete e).module.wire q.2 =
      { s.module.wire q.1 with position := ((s.complete e).module.wire q.2).position } := by
  have hf := fitted_inserted (e := e) hs
  obtain ⟨-, -, -, name, hcopy⟩ := hf.replaced q hq
  have hw := complete_wire_renames (e := e) (s := s) q.2
  rw [wire_renames_copy (exchange_inserted hs) hq, hcopy,
    hf.grown.wire (lt_of_mem_replaced hs hq)] at hw
  exact hw

theorem width_renamed (hs : s.Fresh) {q : WireId × WireId} (hq : q ∈ (s.inserted e).replaced) :
    ((s.inserted e).renamed.wire q.1).width = (s.module.wire q.1).width ∧
      ((s.inserted e).renamed.wire q.2).width = (s.module.wire q.1).width := by
  have h₁ := complete_wire_port hs hq
  have h₂ := complete_wire_copy hs hq
  rw [complete_wire] at h₁ h₂
  rw [h₁, congrArg Wire.width h₂]
  exact ⟨rfl, rfl⟩

theorem widths_renamed (hs : s.Fresh) : ∀ q ∈ (s.inserted e).replaced,
    ((s.inserted e).renamed.wire q.2).width = ((s.inserted e).renamed.wire q.1).width := by
  intro q hq
  obtain ⟨h₁, h₂⟩ := width_renamed hs hq
  exact h₂.trans h₁.symm

theorem complete_wire_feed (hs : s.Fresh) {id : WireId} (hid : s.module.wires.length ≤ id)
    (hlt : id < (s.inserted e).module.wires.length)
    (hr : id ∉ (s.inserted e).replaced.map Prod.snd) :
    ∃ name, (s.complete e).module.wire id = { name, width := 1 } := by
  have hf := fitted_inserted (e := e) hs
  obtain ⟨name, hw⟩ := (hf.wires id hid hlt).resolve_left hr
  have hfst : id ∉ (s.inserted e).replaced.map Prod.fst := by
    intro hmem
    obtain ⟨q, hq, rfl⟩ := List.mem_map.mp hmem
    exact absurd (lt_of_mem_replaced hs hq) (Nat.not_lt.mpr hid)
  refine ⟨name, ?_⟩
  rw [complete_wire]
  unfold renamed
  rw [Module.wire_renumberPorts, wire_renames_other (exchange_inserted hs) hfst hr, hw]
  rfl

theorem namesUnique_complete (hs : s.Fresh) : (s.complete e).module.NamesUnique := by
  have hf := fitted_inserted (e := e) hs
  refine ⟨?_, ?_⟩
  · have hn := nodup_renames (exchange_inserted hs) hf.names.wires
    refine Module.wires_nodup_of_inj fun i hi j hj he => ?_
    rw [length_complete_wires] at hi hj
    rw [congrArg Wire.name (complete_wire_renames i),
      congrArg Wire.name (complete_wire_renames j)] at he
    exact Module.wire_inj_of_name hn (by rwa [length_renames]) (by rwa [length_renames]) he
  · have hc : (s.complete e).module.cells.map (·.name) =
        (s.inserted e).module.cells.map (·.name) := by
      rw [complete_module]
      refine List.ext_getElem? fun k => ?_
      rw [List.getElem?_map, List.getElem?_mapIdx, Option.map_map, List.getElem?_map]
      rfl
    rw [hc]
    exact hf.names.cells

/-- In the end the name of a cell of the start still finds it. -/
theorem findCell_complete (hs : s.Fresh) {k : CellId} (hk : k < s.module.cells.length) :
    (s.complete e).module.findCell (s.module.cell k).name = some k := by
  have hlt : k < (s.complete e).module.cells.length := by
    rw [length_complete_cells]
    exact Nat.lt_of_lt_of_le hk (fitted_inserted (e := e) hs).grown.cells_length
  have hfind := Module.findCell_name (namesUnique_complete (e := e) hs).cells hlt
  rwa [complete_cell_old hs hk] at hfind

/-- The wire that stands for a wire of the start: the copy of a replaced port, the wire itself
otherwise. -/
def standIn (s : Insertion) (id : WireId) : WireId :=
  ((s.replaced.find? (·.1 == id)).map (·.2)).getD id

theorem standIn_of_mem (hs : s.Fresh) {q : WireId × WireId}
    (hq : q ∈ (s.inserted e).replaced) : (s.inserted e).standIn q.1 = q.2 := by
  unfold standIn
  rw [find?_of_nodup (exchange_inserted hs).fst_nodup hq]
  rfl

theorem standIn_cases (s : Insertion) (id : WireId) :
    (id, s.standIn id) ∈ s.replaced ∨ (id ∉ s.replaced.map Prod.fst ∧ s.standIn id = id) := by
  unfold standIn
  cases hf : s.replaced.find? (·.1 == id) with
  | none =>
    refine .inr ⟨fun hmem => ?_, rfl⟩
    obtain ⟨q, hq, rfl⟩ := List.mem_map.mp hmem
    exact List.find?_eq_none.mp hf q hq (by simp)
  | some q =>
    have hid : q.1 = id := by simpa using List.find?_some hf
    subst hid
    exact .inl (List.mem_of_find?_eq_some hf)

theorem complete_wire_standIn (hs : s.Fresh) {id : WireId} (hid : id < s.module.wires.length) :
    (s.complete e).module.wire ((s.inserted e).standIn id) = { s.module.wire id with
      position := ((s.complete e).module.wire ((s.inserted e).standIn id)).position } := by
  rcases standIn_cases (s.inserted e) id with hmem | ⟨hmem, he⟩
  · exact complete_wire_copy hs hmem
  · rw [he]
    exact complete_wire_kept hs hid fun hr => hmem ((mem_replaced_inserted hs id).mpr hr)

theorem standIn_lt (hs : s.Fresh) {id : WireId} (hid : id < s.module.wires.length) :
    (s.inserted e).standIn id < (s.complete e).module.wires.length := by
  have hf := fitted_inserted (e := e) hs
  rw [length_complete_wires]
  rcases standIn_cases (s.inserted e) id with hmem | ⟨-, he⟩
  · exact (hf.replaced _ hmem).2.2.1
  · rw [he]
    exact Nat.lt_of_lt_of_le hid hf.grown.wires_length

theorem findWire_complete (hs : s.Fresh) {id : WireId} (hid : id < s.module.wires.length) :
    (s.complete e).module.findWire (s.module.wire id).name =
      some ((s.inserted e).standIn id) := by
  have hname := congrArg Wire.name (complete_wire_standIn (e := e) hs hid)
  have hfind := Module.findWire_name (namesUnique_complete (e := e) hs).wires (standIn_lt hs hid)
  rw [hname] at hfind
  exact hfind

/-! ## Ports -/

theorem standIn_inj (hs : s.Fresh) {a b : WireId} (ha : a < s.module.wires.length)
    (hb : b < s.module.wires.length)
    (he : (s.inserted e).standIn a = (s.inserted e).standIn b) : a = b := by
  have hwa := congrArg Wire.name (complete_wire_standIn (e := e) hs ha)
  have hwb := congrArg Wire.name (complete_wire_standIn (e := e) hs hb)
  rw [he, hwb] at hwa
  exact Module.wire_inj_of_name hs.names.wires ha hb hwa.symm

theorem wire_renames_standIn (hs : s.Fresh) {id : WireId} (hid : id < s.module.wires.length) :
    ((s.inserted e).replaced.foldl renamePort (s.inserted e).module).wire
      ((s.inserted e).standIn id) = s.module.wire id := by
  have hf := fitted_inserted (e := e) hs
  have hx := exchange_inserted (e := e) hs
  rcases standIn_cases (s.inserted e) id with hmem | ⟨hfst, he⟩
  · obtain ⟨-, -, -, name, hcopy⟩ := hf.replaced _ hmem
    have hw := wire_renames_copy hx hmem
    rw [hcopy, hf.grown.wire hid] at hw
    exact hw
  · have hsnd : id ∉ (s.inserted e).replaced.map Prod.snd := by
      intro hmem
      obtain ⟨q, hq, rfl⟩ := List.mem_map.mp hmem
      exact absurd (hf.replaced q hq).2.1 (Nat.not_le.mpr hid)
    rw [he, wire_renames_other hx hfst hsnd, hf.grown.wire hid]

/-- A wire that is a port in the end stands for one that was a port. -/
theorem isPort_renames (hs : s.Fresh) {id : WireId}
    (hp : (((s.inserted e).replaced.foldl renamePort (s.inserted e).module).wire id).isPort =
      true) : ∃ a < s.module.wires.length, (s.module.wire a).isPort = true ∧
        (s.inserted e).standIn a = id := by
  have hf := fitted_inserted (e := e) hs
  have hx := exchange_inserted (e := e) hs
  by_cases hfst : id ∈ (s.inserted e).replaced.map Prod.fst
  · obtain ⟨q, hq, rfl⟩ := List.mem_map.mp hfst
    rw [wire_renames_port hx hq] at hp
    cases hp
  by_cases hsnd : id ∈ (s.inserted e).replaced.map Prod.snd
  · obtain ⟨q, hq, rfl⟩ := List.mem_map.mp hsnd
    obtain ⟨hin, -⟩ := mem_actions_replace.mp (hf.replaced q hq).1
    refine ⟨q.1, lt_of_mem_replaced hs hq, ?_, standIn_of_mem hs hq⟩
    unfold Wire.isPort
    rw [hin, Bool.true_or]
  rw [wire_renames_other hx hfst hsnd] at hp
  by_cases hid : id < s.module.wires.length
  · rw [hf.grown.wire hid] at hp
    refine ⟨id, hid, hp, ?_⟩
    rcases standIn_cases (s.inserted e) id with hmem | ⟨-, he⟩
    · exact absurd (List.mem_map_of_mem hmem) hfst
    · exact he
  · by_cases hlt : id < (s.inserted e).module.wires.length
    · obtain ⟨name, hw⟩ := (hf.wires id (Nat.le_of_not_lt hid) hlt).resolve_left hsnd
      rw [hw] at hp
      cases hp
    · rw [Module.wire_eq_default (Nat.le_of_not_lt hlt)] at hp
      cases hp

/-- A port list that was in order stays the same, port by port. -/
theorem ports_complete (hs : s.Fresh) (hp : s.module.PortsNumbered) :
    (s.complete e).module.ports.map (s.complete e).module.wire =
      s.module.ports.map s.module.wire := by
  have hlt : ∀ id ∈ s.module.ports, id < s.module.wires.length := by
    intro id hid
    by_contra hge
    have hport := hp.mem.mp hid
    rw [Module.wire_eq_default (Nat.le_of_not_lt hge)] at hport
    cases hport
  have hx := Module.ports_of_exchange hp (f := (s.inserted e).standIn)
    (fun a ha b hb he => standIn_inj hs (hlt a ha) (hlt b hb) he)
    (fun id hid => wire_renames_standIn hs (hlt id hid)) fun id hid => by
      obtain ⟨a, ha, hport, he⟩ := isPort_renames hs hid
      exact ⟨a, hp.mem.mpr hport, he⟩
  rw [complete_module]
  exact hx

theorem ofModule_congr {m m' : Module} (h : m'.ports.map m'.wire = m.ports.map m.wire) :
    Signatures.ofModule m' = Signatures.ofModule m := by
  have hw : ∀ m : Module, Signatures.ofModule m = (m.ports.map m.wire).filterMap fun w =>
      w.direction.map fun d => (w.name, d) := by
    intro m
    rw [List.filterMap_map]
    rfl
  rw [hw, hw, h]

theorem ofModule_complete (hs : s.Fresh) (hp : s.module.PortsNumbered) :
    Signatures.ofModule (s.complete e).module = Signatures.ofModule s.module :=
  ofModule_congr (ports_complete hs hp)

theorem portsNumbered_complete : (s.complete e).module.PortsNumbered := by
  unfold Module.PortsNumbered
  have hr := Module.renumberPorts_renumberPorts
    ((s.inserted e).replaced.foldl renamePort (s.inserted e).module)
  rw [complete_module]
  have hcells : ∀ (m : Module) (cells : List Cell),
      ({ m with cells } : Module).renumberPorts = { m.renumberPorts with cells } :=
    fun _ _ => rfl
  rw [hcells]
  unfold renamed
  rw [hr]

theorem mem_ofModule {m : Module} {port : String} {d : Direction} :
    (port, d) ∈ Signatures.ofModule m ↔
      ∃ id ∈ m.ports, (m.wire id).name = port ∧ (m.wire id).direction = some d := by
  unfold Signatures.ofModule
  rw [List.mem_filterMap]
  refine exists_congr fun id => and_congr_right fun _ => ?_
  rw [Option.map_eq_some_iff]
  constructor
  · intro h
    obtain ⟨d', hd, he⟩ := h
    cases he
    exact ⟨rfl, hd⟩
  · intro h
    obtain ⟨rfl, hd⟩ := h
    exact ⟨d, hd, rfl⟩

/-- The module has a port of that name and direction, and none before it of that name. -/
def Declares (m : Module) (port : String) (d : Direction) : Prop :=
  (Signatures.ofModule m).find? (·.1 == port) = some (port, d)

instance (m : Module) (port : String) (d : Direction) : Decidable (Declares m port d) :=
  inferInstanceAs (Decidable (_ = _))

theorem direction_output {w : Wire} :
    w.direction = some .output ↔ w.isInput = false ∧ w.isOutput = true := by
  unfold Wire.direction
  cases w.isInput <;> cases w.isOutput <;> simp [Direction.ofFlags]

theorem direction_input {w : Wire} :
    w.direction = some .input ↔ w.isInput = true ∧ w.isOutput = false := by
  unfold Wire.direction
  cases w.isInput <;> cases w.isOutput <;> simp [Direction.ofFlags]

theorem lt_of_direction {m : Module} {id : WireId} {d : Direction}
    (h : (m.wire id).direction = some d) : id < m.wires.length := by
  by_contra hge
  rw [Module.wire_eq_default (Nat.le_of_not_lt hge)] at h
  cases h

theorem declares_of_port {m : Module} (hn : (m.wires.map (·.name)).Nodup) {id : WireId}
    (hid : id ∈ m.ports) {d : Direction} (hd : (m.wire id).direction = some d) :
    Declares m (m.wire id).name d := by
  have hmem : ((m.wire id).name, d) ∈ Signatures.ofModule m := mem_ofModule.mpr ⟨id, hid, rfl, hd⟩
  unfold Declares
  cases hf : (Signatures.ofModule m).find? (·.1 == (m.wire id).name) with
  | none => exact absurd (List.find?_eq_none.mp hf _ hmem) (by simp)
  | some p =>
    -- the first port of the name is this one
    obtain ⟨name, d'⟩ := p
    have hname : name = (m.wire id).name := by simpa using List.find?_some hf
    subst hname
    obtain ⟨id', -, hn', hd'⟩ := mem_ofModule.mp (List.mem_of_find?_eq_some hf)
    have he : id' = id :=
      Module.wire_inj_of_name hn (lt_of_direction hd') (lt_of_direction hd) hn'
    rw [he, hd] at hd'
    rw [Option.some.inj hd']

/-- An output that a module declares is declared in the end too, whatever its port list. -/
theorem declares_complete (hs : s.Fresh) {port : String}
    (h : Declares s.module port .output) : Declares (s.complete e).module port .output := by
  have hx := exchange_inserted (e := e) hs
  obtain ⟨id, hid, rfl, hd⟩ := mem_ofModule.mp (List.mem_of_find?_eq_some h)
  obtain ⟨hin, hout⟩ := direction_output.mp hd
  have hlt : id < s.module.wires.length := by
    by_contra hge
    rw [Module.wire_eq_default (Nat.le_of_not_lt hge)] at hout
    cases hout
  have hkept := complete_wire_kept (e := e) hs hlt fun hr => by
    obtain ⟨hi, -⟩ := mem_actions_replace.mp hr
    rw [hin] at hi
    cases hi
  have hport : id ∈ (s.complete e).module.ports := by
    rw [(portsNumbered_complete (e := e) (s := s)).mem, hkept]
    unfold Wire.isPort
    rw [hout, Bool.or_true]
  have hdir : ((s.complete e).module.wire id).direction = some .output := by
    rw [hkept]
    exact hd
  have hdeclares := declares_of_port (namesUnique_complete (e := e) hs).wires hport hdir
  rwa [hkept] at hdeclares

end Outcome

end ClockNet.Buffering.Insertion

import ClockNet.Proofs.Reimport

/-! # Interchange

What a tool takes from a design by way of a JSON netlist is what the design is. Signals and
connections are written as nets only and come back in another form, but the nets are the same ones:
places that were on one net are on one net again, also where they were on the net of a constant
(`importDesign_kept`). Trees are taken for texts here; a tree that is printed is taken to be parsed
as it was. -/

namespace ClockNet

/-! ## Places of a module -/

/-- A place that has a bit: one of a wire, or one of the signal on a port of a cell. -/
inductive Spot where
  | wire (id : WireId) (place : Nat)
  | port (id : CellId) (port : String) (place : Nat)

namespace Module

def bitAt? (m : Module) : Spot → Option Bit
  | .wire id place => if place < (m.wire id).width then some (.wire id place) else none
  | .port id port place => ((m.cell id).ports.get? port).bind (·[place]?)

/-- What stands for the net at a place. -/
def netAt? (m : Module) (s : Spot) : Option Bit := (m.bitAt? s).map m.aliases.root

theorem bitAt?_wire (m : Module) (id : WireId) (place : Nat) : m.bitAt? (.wire id place) =
    if place < (m.wire id).width then some (.wire id place) else none := rfl

theorem bitAt?_port (m : Module) (id : CellId) (port : String) (place : Nat) :
    m.bitAt? (.port id port place) = ((m.cell id).ports.get? port).bind (·[place]?) := rfl

theorem hasBit_of_bitAt? {m : Module} (hm : m.WellFormed) {s : Spot} {b : Bit}
    (h : m.bitAt? s = some b) : m.HasBit b := by
  cases s with
  | wire id place =>
    rw [bitAt?_wire, Option.ite_none_right_eq_some] at h
    obtain ⟨hplace, hb⟩ := h
    exact Option.some.inj hb ▸ hplace
  | port id port place =>
    rw [bitAt?_port] at h
    obtain ⟨s, hs, hb⟩ := Option.bind_eq_some_iff.mp h
    have hentry := OrderedTable.mem_of_get? hs
    by_cases hid : id < m.cells.length
    · exact hm.cell_bits _ (cell_mem hid) _ hentry b (List.mem_of_getElem? hb)
    · rw [cell, List.getElem?_eq_none (Nat.le_of_not_lt hid)] at hs
      cases hs

end Module

namespace NetlistJson

/-! ## What is kept -/

def attributeNames (a : Attributes) : List String := a.entries.map Prod.fst

/-- A wire is kept in all but the values of its attributes. -/
structure WireKept (w w' : Wire) : Prop where
  shape : { w' with attributes := w.attributes } = w
  attributes : attributeNames w'.attributes = attributeNames w.attributes

/-- A cell keeps its names and the widths and directions of its connected ports. -/
structure CellKept (signatures signatures' : Signatures) (c c' : Cell) : Prop where
  name : c'.name = c.name
  type : c'.type = c.type
  parameters : attributeNames c'.parameters = attributeNames c.parameters
  attributes : attributeNames c'.attributes = attributeNames c.attributes
  ports : c'.ports.entries.map (fun e => (e.1, e.2.length)) =
    c.ports.entries.map fun e => (e.1, e.2.length)
  directions : ∀ e ∈ c.ports.entries, signatures'.direction c' e.1 = signatures.direction c e.1

/-- The same places have bits, and are on one net, or on that of a constant, as before. -/
structure NetsKept (m m' : Module) : Prop where
  places : ∀ s, (m'.bitAt? s).isSome = (m.bitAt? s).isSome
  nets : ∀ s t, m'.netAt? s = m'.netAt? t ↔ m.netAt? s = m.netAt? t
  constants : ∀ s t, m'.netAt? s = some (.const t) ↔ m.netAt? s = some (.const t)

/-- A module is kept but for the values of attributes and the form of its nets. -/
structure ModuleKept (signatures signatures' : Signatures) (m m' : Module) : Prop where
  name : m'.name = m.name
  attributes : attributeNames m'.attributes = attributeNames m.attributes
  wires : List.Forall₂ WireKept m.wires m'.wires
  ports : m'.ports = m.ports
  cells : List.Forall₂ (CellKept signatures signatures') m.cells m'.cells
  nets : NetsKept m m'

/-! ## Wires and cells -/

theorem attributeNames_rereadAll (a : Attributes) :
    attributeNames (rereadAll a) = attributeNames a := by
  simp [attributeNames, rereadAll, SortedTable.mapValues, Function.comp_def]

theorem wireKept_rereadWire (w : Wire) : WireKept w (rereadWire w) :=
  ⟨rfl, attributeNames_rereadAll w.attributes⟩

theorem wire_rebuilt (signatures : Signatures) (m : Module) (id : WireId) :
    (rebuilt signatures m).wire id = rereadWire (m.wire id) := by
  unfold Module.wire rebuilt
  rw [List.getElem?_map]
  cases m.wires[id]? <;> rfl

theorem cell_rebuilt (signatures : Signatures) {m : Module} {id : CellId}
    (hid : id < m.cells.length) :
    (rebuilt signatures m).cell id = rebuiltCell signatures m (m.cell id) := by
  simp [Module.cell, rebuilt, hid]

theorem ofDesign_rebuilt (signatures : Signatures) (d : Design) :
    Signatures.ofDesign ⟨d.modules.map (rebuilt signatures)⟩ = .ofDesign d := by
  have hmodule : ∀ m, Signatures.ofModule (rebuilt signatures m) = Signatures.ofModule m := by
    intro m
    unfold Signatures.ofModule
    simp only [wire_rebuilt]
    rfl
  unfold Signatures.ofDesign
  rw [List.map_map]
  exact congrArg Signatures.mk (List.map_congr_left fun m _ => congrArg _ (hmodule m))

/-- The direction of a connected port is written, and so recorded with the cell that is read. -/
theorem get?_readDirections (signatures : Signatures) (c : Cell) {port : String}
    (h : port ∈ c.ports.entries.map Prod.fst) :
    (readDirections signatures c).get? port = signatures.direction c port := by
  let record (t : SortedTable Direction) (e : String × Direction) := t.insert e.1 e.2
  have hfold : ∀ (entries : List (String × Signal)) (t : SortedTable Direction),
      ((entries.filterMap fun e => (signatures.direction c e.1).map fun d => (e.1, d)).foldl
        record t).get? port = if port ∈ entries.map Prod.fst then
          (signatures.direction c port).or (t.get? port) else t.get? port := by
    intro entries
    induction entries with
    | nil => exact fun t => rfl
    | cons e rest ih =>
      intro t
      by_cases he : port = e.1
      · subst he
        cases hd : signatures.direction c e.1 with
        | none => simp [hd, ih]
        | some d => simp [hd, ih, record, SortedTable.get?_insert]
      · have hmem : port ∈ (e :: rest).map Prod.fst ↔ port ∈ rest.map Prod.fst := by
          rw [List.map_cons, List.mem_cons, or_iff_right he]
        cases hd : signatures.direction c e.1 with
        | none => simp only [List.filterMap_cons, hd, Option.map_none, ih, hmem]
        | some d =>
          simp only [List.filterMap_cons, hd, Option.map_some, List.foldl_cons, ih, hmem, record,
            SortedTable.get?_insert, if_neg he]
  have hread := hfold c.ports.entries .empty
  rw [if_pos h, SortedTable.get?_empty, Option.or_none] at hread
  exact hread

theorem direction_rebuiltCell (signatures : Signatures) (m : Module) (c : Cell) {port : String}
    (h : port ∈ c.ports.entries.map Prod.fst) :
    signatures.direction (rebuiltCell signatures m c) port = signatures.direction c port := by
  have hread : (rebuiltCell signatures m c).directions.get? port = signatures.direction c port :=
    get?_readDirections signatures c h
  have htype : (rebuiltCell signatures m c).type = c.type := rfl
  unfold Signatures.direction at hread ⊢
  rw [htype, hread]
  cases signatures.modules.find? (·.1 == c.type) <;> rfl

theorem cellKept_rebuiltCell (signatures : Signatures) (m : Module) (c : Cell) :
    CellKept signatures signatures c (rebuiltCell signatures m c) where
  name := rfl
  type := rfl
  parameters := attributeNames_rereadAll c.parameters
  attributes := attributeNames_rereadAll c.attributes
  ports := by simp [rebuiltCell, OrderedTable.mapValues, Function.comp_def]
  directions e he := direction_rebuiltCell signatures m c (List.mem_map_of_mem he)

/-! ## Nets -/

theorem netAt?_rebuilt (signatures : Signatures) {m : Module} (hm : m.WellFormed) (s : Spot) :
    (rebuilt signatures m).netAt? s = (m.bitAt? s).map m.homeOf := by
  have hroot : ∀ b, m.HasBit b → (rebuilt signatures m).aliases.root b = m.homeOf b :=
    fun b hb => Module.root_homes hb
  cases s with
  | wire id place =>
    have hwidth : ((rebuilt signatures m).wire id).width = (m.wire id).width := by
      rw [wire_rebuilt]
      rfl
    rw [Module.netAt?, Module.bitAt?_wire, Module.bitAt?_wire, hwidth]
    by_cases hplace : place < (m.wire id).width
    · have hb : m.HasBit (.wire id place) := hplace
      rw [if_pos hplace, Option.map_some, Option.map_some, hroot _ hb]
    · rw [if_neg hplace, Option.map_none, Option.map_none]
  | port id port place =>
    have hbit : (rebuilt signatures m).bitAt? (.port id port place) =
        (m.bitAt? (.port id port place)).map m.homeOf := by
      rw [Module.bitAt?_port, Module.bitAt?_port]
      by_cases hid : id < m.cells.length
      · rw [cell_rebuilt signatures hid]
        show (((m.cell id).ports.mapValues fun _ s => s.map m.homeOf).get? port).bind _ = _
        rw [OrderedTable.get?_mapValues]
        cases (m.cell id).ports.get? port with
        | none => rfl
        | some s => simp
      · have hnone : m.cell id = default := by
          rw [Module.cell, List.getElem?_eq_none (Nat.le_of_not_lt hid), Option.getD_none]
        have hnone' : (rebuilt signatures m).cell id = default := by
          rw [Module.cell, List.getElem?_eq_none (by simpa [rebuilt] using hid), Option.getD_none]
        rw [hnone, hnone']
        rfl
    rw [Module.netAt?, hbit, Option.map_map]
    -- the home is a bit of the module, and its own home
    refine Option.map_congr fun b hb => ?_
    have hb : m.HasBit b := Module.hasBit_of_bitAt? hm hb
    rw [Function.comp_apply, hroot _ (Module.hasBit_homeOf hb), Module.homeOf_homeOf hb]

theorem netsKept_rebuilt (signatures : Signatures) {m : Module} (hm : m.WellFormed) :
    NetsKept m (rebuilt signatures m) where
  places s := by
    have hsome : ∀ m : Module, (m.bitAt? s).isSome = (m.netAt? s).isSome := by
      intro m
      rw [Module.netAt?, Option.isSome_map]
    rw [hsome, netAt?_rebuilt signatures hm, Option.isSome_map]
  nets s t := by
    rw [netAt?_rebuilt signatures hm, netAt?_rebuilt signatures hm, Module.netAt?, Module.netAt?]
    cases hs : m.bitAt? s with
    | none => cases m.bitAt? t <;> simp
    | some b =>
      cases ht : m.bitAt? t with
      | none => simp
      | some b' =>
        have hb := Module.hasBit_of_bitAt? hm hs
        have hb' := Module.hasBit_of_bitAt? hm ht
        simp [Module.homeOf_inj hb hb']
  constants s t := by
    rw [netAt?_rebuilt signatures hm, Module.netAt?]
    cases hs : m.bitAt? s with
    | none => simp
    | some b => simp [Module.homeOf_eq_const (Module.hasBit_of_bitAt? hm hs)]

/-! ## Designs -/

theorem moduleKept_rebuilt (signatures : Signatures) {m : Module} (hm : m.WellFormed) :
    ModuleKept signatures signatures m (rebuilt signatures m) where
  name := rfl
  attributes := attributeNames_rereadAll m.attributes
  wires := List.forall₂_map_right_iff.mpr (List.forall₂_same.mpr fun w _ => wireKept_rereadWire w)
  ports := rfl
  cells := List.forall₂_map_right_iff.mpr
    (List.forall₂_same.mpr fun c _ => cellKept_rebuiltCell signatures m c)
  nets := netsKept_rebuilt signatures hm

/-- A design with unique names, signals within its wires and ports in order is read where it was
written, with the same modules, wires, ports and cells and with the same nets. -/
theorem importDesign_kept {d : Design} (hd : d.WellFormed) (hp : d.PortsNumbered)
    (ho : ∀ m ∈ d.modules, OffsetsFit m) :
    ∃ d', importDesign (exportDesign d) = .ok d' ∧
      List.Forall₂ (ModuleKept (.ofDesign d) (.ofDesign d')) d.modules d'.modules := by
  refine ⟨_, importDesign_exportDesign hd hp ho, ?_⟩
  rw [ofDesign_rebuilt]
  refine List.forall₂_map_right_iff.mpr (List.forall₂_same.mpr ?_)
  intro m hm
  exact moduleKept_rebuilt _ (hd.modules m hm)

/-- A stage with two names of one net, and a module around it with a wire on two constants. -/
def tiedStage : Design := ⟨[
  { name := "stage"
    wires := [{ name := "d", width := 1, isInput := true, position := 2 },
              { name := "q", width := 1, isOutput := true, position := 1 }]
    connections := [([.wire 1 0], [.wire 0 0])]
    ports := [1, 0] },
  { name := "top"
    wires := [{ name := "a", width := 2, offset := -4, upto := true, signed := true },
              { name := "b", width := 2 },
              { name := "c", width := 1
                attributes := SortedTable.empty.insert "keep" (.const []) }]
    cells := [{ name := "s", type := "stage"
                ports := (OrderedTable.empty.set "q" [.wire 1 1]).set "d" [.wire 2 0] },
              { name := "g", type := "INV"
                ports := OrderedTable.empty.set "A" [.wire 0 1, .const .unknown]
                directions := SortedTable.empty.insert "A" .input }]
    connections := [([.wire 0 0, .wire 0 1], [.wire 1 1, .wire 1 0]),
                    ([.wire 2 0], [.const .zero]), ([.wire 2 0], [.const .one])] }]⟩

/-- The stage is read with its port list, its instance with the declared directions, and the wire
is on the first of its constants. -/
theorem importDesign_kept_tiedStage : tiedStage.WellFormed ∧ tiedStage.PortsNumbered ∧
    (∀ m ∈ tiedStage.modules, OffsetsFit m) ∧
    ∃ d', importDesign (exportDesign tiedStage) = .ok d' ∧
      List.Forall₂ (ModuleKept (.ofDesign tiedStage) (.ofDesign d')) tiedStage.modules
        d'.modules := by
  have hd : tiedStage.WellFormed := by decide
  have hp : tiedStage.PortsNumbered := by decide
  have ho : ∀ m ∈ tiedStage.modules, OffsetsFit m := by decide
  exact ⟨hd, hp, ho, importDesign_kept hd hp ho⟩

end NetlistJson

end ClockNet

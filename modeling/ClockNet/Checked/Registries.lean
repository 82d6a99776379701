import ClockNet.Checked.Kernel
import ClockNet.Proofs.NameMaps
import ClockNet.Proofs.Tables

/-! # Changing modules, with their maps

The operations that change a module work on the module together with the maps of its names: a name
is new if the map does not have it, a fresh name is sought in the maps, and whatever adds or renames
writes both. What an operation does to the module is what it does without maps, and the maps still
have the names of the wires and cells afterwards (`Registry.Registers`). A design is a map of such
modules by their names (`Registries`). -/

namespace ClockNet

open Checked (bind_ok demand ensure foldlM_agrees)

variable {ε : Type}

namespace Registry

/-! ## Operations -/

/-- A name that neither map has; the search for it has to end. -/
def nextName (r : Registry) (stem : String) : Checked ε (String × Registry) :=
  demand (.endless stem) (r.freshName stem)

def createWire (r : Registry) (name : String) (width : Nat) : Checked ε (WireId × Registry) :=
  demand (.duplicateWire name r.module.name) (r.addWire { name, width })

def updateWire (r : Registry) (id : WireId) (f : Wire → Wire) : Checked ε Registry := do
  ensure (id < r.module.wires.length) (.noWire id)
  .ok (r.withModule (·.modifyWire id f))

/-- Adds a wire of the width of another one and gives it its other traits then. -/
def createWireLike (r : Registry) (name : String) (template : WireId) :
    Checked ε (WireId × Registry) := do
  let w ← r.module.lookupWire template
  let (id, r) ← r.createWire name w.width
  let r ← r.updateWire id fun _ => { w with name }
  .ok (id, r)

/-- Exchanges the names of two wires, in the wires and in the map. -/
def exchangeNames (r : Registry) (a b : WireId) : Checked ε Registry :=
  demand (.noWire (if a < r.module.wires.length then b else a)) (r.swapNames a b)

def createCell (r : Registry) (name type : String) : Checked ε (CellId × Registry) :=
  demand (.duplicateCell name r.module.name) (r.addCell { name, type })

def updateCell (r : Registry) (id : CellId) (f : Cell → Cell) : Checked ε Registry := do
  ensure (id < r.module.cells.length) (.noCell id)
  .ok (r.withModule (·.modifyCell id f))

/-- Puts what a step makes of a cell in its place. -/
def rewriteCell (step : CellId → Cell → Checked ε Cell) (r : Registry) (id : CellId) :
    Checked ε Registry := do
  let c ← r.module.lookupCell id
  let c ← step id c
  r.updateCell id fun _ => c

def rewriteCells (r : Registry) (step : CellId → Cell → Checked ε Cell) : Checked ε Registry :=
  (List.range r.module.cells.length).foldlM (rewriteCell step) r

/-- Connects two signals, which must be of one length. -/
def join (r : Registry) (driven driver : Signal) : Checked ε Registry := do
  let m ← demand (.widthMismatch driven.length driver.length) (r.module.connect? driven driver)
  .ok { r with module := m }

/-- Numbers the ports, for which all wires and then the ports are looked up. -/
def renumber (r : Registry) : Checked ε Registry := do
  let _ ← r.module.lookupWires r.module.wireIds
  let _ ← r.module.lookupWires r.module.sortedPorts
  .ok (r.withModule (·.renumberPorts))

end Registry

namespace Module
variable {m : Module}

theorem findWire_freshName (m : Module) (stem : String) :
    (m.freshName stem).2.findWire (m.freshName stem).1 = none := by
  refine findWire_eq_none.mpr fun h => freshName_not_mem m stem ?_
  exact List.mem_append_left _ h

theorem findCell_freshName (m : Module) (stem : String) :
    (m.freshName stem).2.findCell (m.freshName stem).1 = none := by
  refine findCell_eq_none.mpr fun h => freshName_not_mem m stem ?_
  exact List.mem_append_right _ h

end Module

/-! ## What they do -/

namespace Registry

/-- The module is this one, and the maps have the names of its wires and cells. -/
structure Registers (r : Registry) (m : Module) : Prop where
  module_eq : r.module = m
  consistent : r.Consistent

namespace Registers
variable {r : Registry} {m : Module}

theorem findWire (h : r.Registers m) (name : String) : r.findWire name = m.findWire name :=
  h.module_eq ▸ h.consistent.findWire_eq name

theorem findCell (h : r.Registers m) (name : String) : r.findCell name = m.findCell name :=
  h.module_eq ▸ h.consistent.findCell_eq name

/-- A change of the module that leaves all names leaves the maps right. -/
theorem withModule (h : r.Registers m) {f : Module → Module}
    (hwires : (f m).wires.map (·.name) = m.wires.map (·.name))
    (hcells : (f m).cells.map (·.name) = m.cells.map (·.name)) :
    (r.withModule f).Registers (f m) := by
  obtain ⟨rfl, hr⟩ := h
  refine ⟨rfl, ?_, ?_⟩
  · show Indexes r.wireNames _
    rw [show ((r.withModule f).module.wires.map (·.name)) = _ from hwires]
    exact hr.wires
  · show Indexes r.cellNames _
    rw [show ((r.withModule f).module.cells.map (·.name)) = _ from hcells]
    exact hr.cells

theorem nextName (h : r.Registers m) (stem : String) :
    ∃ r', r.nextName (ε := ε) stem = .ok ((m.freshName stem).1, r') ∧
      r'.Registers (m.freshName stem).2 := by
  obtain ⟨rfl, hr⟩ := h
  have hfresh := hr.freshName_eq stem
  exact ⟨_, by rw [Registry.nextName, hfresh]; rfl, rfl, (hr.step_freshName hfresh).consistent⟩

theorem createWire (h : r.Registers m) {name : String} (hnew : m.findWire name = none)
    (width : Nat) : ∃ r', r.createWire (ε := ε) name width = .ok (m.wires.length, r') ∧
      r'.Registers (m.addWire { name, width }) := by
  have hadd : r.addWire { name, width } = some (m.wires.length, { r with
      module := m.addWire { name, width }, wireNames := r.wireNames.set name m.wires.length }) := by
    rw [addWire, h.findWire, hnew, h.module_eq]
    rfl
  refine ⟨_, ?_, rfl, (h.consistent.step_addWire hadd).consistent⟩
  rw [Registry.createWire, hadd]
  rfl

theorem updateWire (h : r.Registers m) {id : WireId} (hid : id < m.wires.length) {f : Wire → Wire}
    (hname : (f (m.wire id)).name = (m.wire id).name) :
    ∃ r', r.updateWire (ε := ε) id f = .ok r' ∧ r'.Registers (m.modifyWire id f) := by
  refine ⟨_, ?_, h.withModule (f := (·.modifyWire id f))
    (Module.map_modifyWire m id hname) rfl⟩
  rw [Registry.updateWire, Checked.ensure_ok (h.module_eq ▸ hid)]
  rfl

/-- A wire that is filled in where it has been added keeps its name. -/
theorem updateWire_addWire {w : Wire} (h : r.Registers (m.addWire w)) {f : Wire → Wire}
    (hname : (f w).name = w.name) :
    ∃ r', r.updateWire (ε := ε) m.wires.length f = .ok r' ∧ r'.Registers (m.addWire (f w)) := by
  have hwire : (m.addWire w).wire m.wires.length = w := by simp [Module.wire, Module.addWire]
  obtain ⟨r', he, hr'⟩ := h.updateWire (ε := ε) (show m.wires.length < _ by simp [Module.addWire])
    (f := f) (by rw [hwire]; exact hname)
  refine ⟨r', he, ?_⟩
  rwa [Module.modifyWire, Module.addWire, modify_concat] at hr'

theorem createWireLike (h : r.Registers m) {name : String} (hnew : m.findWire name = none)
    {template : WireId} (ht : template < m.wires.length) :
    ∃ r', r.createWireLike (ε := ε) name template = .ok (m.wires.length, r') ∧
      r'.Registers (m.addWire (m.wireLike name template)) := by
  obtain ⟨r₁, h₁, hr₁⟩ := h.createWire (ε := ε) hnew (m.wire template).width
  obtain ⟨r₂, h₂, hr₂⟩ := hr₁.updateWire_addWire (ε := ε) (f := fun _ => m.wireLike name template)
    rfl
  refine ⟨r₂, ?_, hr₂⟩
  rw [Registry.createWireLike, h.module_eq, Module.lookupWire_ok ht, bind_ok, h₁, bind_ok]
  dsimp only
  rw [show (fun _ => { m.wire template with name }) = fun _ : Wire => m.wireLike name template
    from rfl, h₂]
  rfl

theorem exchangeNames (h : r.Registers m) {a b : WireId} (ha : a < m.wires.length)
    (hb : b < m.wires.length) :
    ∃ r', r.exchangeNames (ε := ε) a b = .ok r' ∧ r'.Registers (m.swapNames a b) := by
  obtain ⟨rfl, hr⟩ := h
  by_cases hab : a = b
  · subst hab
    refine ⟨r, ?_, (Module.swapNames_self r.module a).symm, hr⟩
    rw [Registry.exchangeNames, swapNames, if_pos rfl]
    rfl
  · have hswap : r.swapNames a b = some { r with
        module := r.module.swapNames a b
        wireNames := (r.wireNames.set (r.module.wire a).name b).set (r.module.wire b).name a } :=
      (if_neg hab).trans (if_pos ⟨ha, hb⟩)
    exact ⟨_, by rw [Registry.exchangeNames, hswap]; rfl, rfl, (hr.step_swapNames hswap).consistent⟩

theorem createCell (h : r.Registers m) {name : String} (hnew : m.findCell name = none)
    (type : String) : ∃ r', r.createCell (ε := ε) name type = .ok (m.cells.length, r') ∧
      r'.Registers (m.addCell { name, type }) := by
  have hadd : r.addCell { name, type } = some (m.cells.length, { r with
      module := m.addCell { name, type }, cellNames := r.cellNames.set name m.cells.length }) := by
    rw [addCell, h.findCell, hnew, h.module_eq]
    rfl
  refine ⟨_, ?_, rfl, (h.consistent.step_addCell hadd).consistent⟩
  rw [Registry.createCell, hadd]
  rfl

theorem updateCell (h : r.Registers m) {id : CellId} (hid : id < m.cells.length) {f : Cell → Cell}
    (hname : (f (m.cell id)).name = (m.cell id).name) :
    ∃ r', r.updateCell (ε := ε) id f = .ok r' ∧ r'.Registers (m.modifyCell id f) := by
  refine ⟨_, ?_, h.withModule (f := (·.modifyCell id f)) rfl
    (Module.map_modifyCell m id hname)⟩
  rw [Registry.updateCell, Checked.ensure_ok (h.module_eq ▸ hid)]
  rfl

/-- A cell that is filled in where it has been added keeps its name. -/
theorem updateCell_addCell {c : Cell} (h : r.Registers (m.addCell c)) {f : Cell → Cell}
    (hname : (f c).name = c.name) :
    ∃ r', r.updateCell (ε := ε) m.cells.length f = .ok r' ∧ r'.Registers (m.addCell (f c)) := by
  have hcell : (m.addCell c).cell m.cells.length = c := by simp [Module.cell, Module.addCell]
  obtain ⟨r', he, hr'⟩ := h.updateCell (ε := ε) (show m.cells.length < _ by simp [Module.addCell])
    (f := f) (by rw [hcell]; exact hname)
  refine ⟨r', he, ?_⟩
  rwa [Module.modifyCell, Module.addCell, modify_concat] at hr'

theorem rewriteCell {front rest : List Cell} {c : Cell}
    (h : r.Registers { m with cells := front ++ c :: rest })
    {step : CellId → Cell → Checked ε Cell} {c' : Cell} (hstep : step front.length c = .ok c')
    (hname : c'.name = c.name) : ∃ r', Registry.rewriteCell step r front.length = .ok r' ∧
      r'.Registers { m with cells := front ++ c' :: rest } := by
  have hlookup : r.module.lookupCell (ε := ε) front.length = .ok c := by
    rw [h.module_eq, Module.lookupCell]
    simp
  have hcell : ({ m with cells := front ++ c :: rest } : Module).cell front.length = c := by
    simp [Module.cell]
  obtain ⟨r', he, hr'⟩ := h.updateCell (ε := ε) (show front.length < _ by simp) (f := fun _ => c')
    (by rw [hcell]; exact hname)
  refine ⟨r', by rw [Registry.rewriteCell, hlookup, bind_ok, hstep, bind_ok, he], ?_⟩
  rw [Module.modifyCell, List.modify_eq_take_cons_drop (by simp)] at hr'
  simpa using hr'

theorem rewriteCells (h : r.Registers m) {g : CellId → Cell → Checked ε Cell}
    {f : CellId → Cell → Cell}
    (hstep : ∀ id < m.cells.length, g id (m.cell id) = .ok (f id (m.cell id)))
    (hname : ∀ id c, (f id c).name = c.name) :
    ∃ r', r.rewriteCells g = .ok r' ∧ r'.Registers { m with cells := m.cells.mapIdx f } := by
  have hpart : ∀ k ≤ m.cells.length,
      ∃ r', (List.range k).foldlM (Registry.rewriteCell g) r = .ok r' ∧
        r'.Registers { m with cells := (m.cells.take k).mapIdx f ++ m.cells.drop k } := by
    intro k hk
    induction k with
    | zero => exact ⟨r, rfl, h⟩
    | succ k ih =>
      obtain ⟨r₁, h₁, hr₁⟩ := ih (Nat.le_of_succ_le hk)
      have hlength : ((m.cells.take k).mapIdx f).length = k := by
        rw [List.length_mapIdx, List.length_take_of_le (Nat.le_of_succ_le hk)]
      rw [List.drop_eq_getElem_cons hk, ← Module.cell_eq_getElem hk] at hr₁
      have hnext : g ((m.cells.take k).mapIdx f).length (m.cell k) = .ok (f k (m.cell k)) := by
        rw [hlength]
        exact hstep k hk
      obtain ⟨r₂, h₂, hr₂⟩ := hr₁.rewriteCell hnext (hname k _)
      rw [hlength] at h₂
      refine ⟨r₂, ?_, ?_⟩
      · rw [List.range_succ, List.foldlM_append, h₁, bind_ok, List.foldlM_cons, h₂]
        rfl
      · rw [List.take_succ_eq_append_getElem hk, List.mapIdx_concat,
          List.length_take_of_le (Nat.le_of_succ_le hk), List.append_assoc,
          ← Module.cell_eq_getElem hk]
        exact hr₂
  have hall := hpart m.cells.length (Nat.le_refl _)
  rw [List.take_length, List.drop_length, List.append_nil] at hall
  rw [Registry.rewriteCells, h.module_eq]
  exact hall

theorem join (h : r.Registers m) (driven driver : Signal) (hlen : driven.length = driver.length) :
    ∃ r', r.join (ε := ε) driven driver = .ok r' ∧ r'.Registers (m.connect driven driver) := by
  refine ⟨_, ?_, h.withModule (f := (·.connect driven driver)) rfl rfl⟩
  rw [Registry.join, Module.connect?, if_pos hlen]
  rfl

theorem renumber (h : r.Registers m) :
    ∃ r', r.renumber (ε := ε) = .ok r' ∧ r'.Registers m.renumberPorts := by
  refine ⟨_, ?_, h.withModule (Module.map_renumberPorts m fun _ _ => rfl) rfl⟩
  have hwires : ∀ id ∈ r.module.wireIds, id < r.module.wires.length :=
    fun id hid => List.mem_range.mp hid
  have hports : ∀ id ∈ r.module.sortedPorts, id < r.module.wires.length :=
    fun id hid => Module.lt_of_isPort (Module.mem_sortedPorts.mp hid)
  rw [Registry.renumber, Module.lookupWires_ok hwires, Module.lookupWires_ok hports]
  rfl

end Registers

end Registry

/-! ## Designs -/

/-- The modules of a design by their names, each with the maps of its own names. -/
structure Registries where
  table : OrderedTable Registry := .empty
deriving DecidableEq

namespace Registries

/-- The design that the maps belong to. -/
def design (d : Registries) : Design := ⟨d.table.entries.map (·.2.module)⟩

def find? (d : Registries) (name : String) : Option Registry := d.table.get? name

/-- Adds a module without contents, whose name must be new. -/
def create (d : Registries) (name : String) : Checked ε Registries := do
  ensure ((d.find? name).isNone = true) (.duplicateModule name)
  .ok ⟨d.table.set name (.new name)⟩

theorem create_ok {d : Registries} {name : String} (h : d.find? name = none) :
    d.create (ε := ε) name = .ok ⟨d.table.set name (.new name)⟩ := by
  rw [create, Checked.ensure_ok (by rw [h]; rfl)]
  rfl

def put (d : Registries) (name : String) (r : Registry) : Registries := ⟨d.table.set name r⟩

/-- The modules are those of the design, each under its name and with its maps. -/
structure Registers (d : Registries) (p : Design) : Prop where
  design_eq : d.design = p
  entries : ∀ e ∈ d.table.entries, e.2.module.name = e.1 ∧ e.2.Consistent

namespace Registers
variable {d : Registries} {p : Design} {r : Registry} {m : Module}

theorem empty : Registers {} {} := ⟨rfl, nofun⟩

/-- The map finds what a search through the modules finds. -/
theorem find?_eq (h : d.Registers p) (name : String) :
    p.find? name = (d.find? name).map (·.module) := by
  obtain ⟨rfl, hentries⟩ := h
  have hsame : d.table.entries.find? ((·.name == name) ∘ fun e => e.2.module) =
      d.table.entries.find? (·.1 == name) := by
    refine List.find?_congr fun e he => ?_
    rw [Function.comp_apply, (hentries e he).1]
  show (d.table.entries.map _).find? _ = _
  rw [List.find?_map, hsame, find?, OrderedTable.get?, Option.map_map]
  rfl

theorem registry (h : d.Registers p) {name : String} (hr : d.find? name = some r) :
    r.Registers r.module := ⟨rfl, (h.entries _ (OrderedTable.mem_of_get? hr)).2⟩

theorem not_mem_names (h : d.Registers p) {name : String} (hnew : p.find? name = none) :
    name ∉ d.table.entries.map Prod.fst := by
  intro hmem
  obtain ⟨e, he, rfl⟩ := List.mem_map.mp hmem
  rw [h.find?_eq, find?, OrderedTable.get?_of_mem he] at hnew
  cases hnew

theorem add (h : d.Registers p) (hr : r.Registers m) (hnew : p.find? m.name = none) :
    (Registries.put ⟨d.table.set m.name (.new m.name)⟩ m.name r).Registers (p.add m) := by
  have hentries : (d.table.set m.name r).entries = d.table.entries ++ [(m.name, r)] :=
    OrderedTable.replaceOrAppend_of_not_mem (h.not_mem_names hnew)
  rw [put, OrderedTable.set_set]
  refine ⟨?_, ?_⟩
  · rw [design, hentries, List.map_append, ← h.design_eq]
    simp [Design.add, design, hr.module_eq]
  · intro e he
    rw [hentries] at he
    rcases List.mem_append.mp he with he | he
    · exact h.entries e he
    · rw [List.mem_singleton.mp he]
      exact ⟨congrArg Module.name hr.module_eq, hr.consistent⟩

theorem replace (h : d.Registers p) (hr : r.Registers m) (hold : (p.find? m.name).isSome = true) :
    (d.put m.name r).Registers (p.replace m) := by
  have hmem : m.name ∈ d.table.entries.map Prod.fst := by
    rw [h.find?_eq, Option.isSome_map, Option.isSome_iff_exists] at hold
    obtain ⟨old, hold⟩ := hold
    exact List.mem_map_of_mem (OrderedTable.mem_of_get? hold)
  have hentries : (d.table.set m.name r).entries =
      d.table.entries.map fun e => if e.1 = m.name then (m.name, r) else e :=
    OrderedTable.replaceOrAppend_of_mem d.table.nodup hmem
  refine ⟨?_, ?_⟩
  · rw [put, design, hentries, ← h.design_eq, design, Design.replace]
    simp only [List.map_map]
    refine congrArg Design.mk (List.map_congr_left fun e he => ?_)
    simp only [Function.comp_apply, (h.entries e he).1]
    split
    · exact hr.module_eq
    · rfl
  · intro e he
    rw [put, hentries] at he
    obtain ⟨old, hold, rfl⟩ := List.mem_map.mp he
    split
    · exact ⟨congrArg Module.name hr.module_eq, hr.consistent⟩
    · exact h.entries old hold

end Registers

end Registries

end ClockNet

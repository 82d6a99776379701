import ClockNet.Checked.Registries
import ClockNet.Proofs.FixedPoint

/-! # Reading a JSON netlist, with assertions

The import again, on operations that check what they ask for and on modules with their maps. A wire
is bound under a new name and given its shape by its id; each connection joins two single bits; a
net without a name gets a fresh one; a cell is added bare and filled in when its signals are known,
and a module is filled in within the design. Whatever tree is imported, the import ends as the plain
one does, and the maps have the names of what has been read (`importDesign_agrees`). -/

namespace ClockNet.NetlistJson.Checked

open ClockNet.Checked (Agrees agrees_lift agrees_lift_bind agrees_ok bind_ok lift)

/-- A module being read, with the maps of its names. -/
structure Draft extends NetlistJson.Draft where
  wireNames : OrderedTable WireId := .empty
  cellNames : OrderedTable CellId := .empty

namespace Draft

def registry (d : Draft) : Registry := ⟨d.module, d.wireNames, d.cellNames⟩

def withRegistry (d : Draft) (r : Registry) : Draft :=
  { d with module := r.module, wireNames := r.wireNames, cellNames := r.cellNames }

def settleNet (d : Draft) (net : Nat) (bit : Bit) : Draft :=
  { d with toDraft := d.settle net bit }

/-- The draft is this one, and the maps have the names of its module. -/
structure Registers (d : Draft) (p : NetlistJson.Draft) : Prop where
  draft_eq : d.toDraft = p
  consistent : d.registry.Consistent

end Draft

/-- The same value, read together with a draft. -/
def Read {α : Type} (x : α × Draft) (y : α × NetlistJson.Draft) : Prop :=
  x.1 = y.1 ∧ x.2.Registers y.2

section
variable {d : Draft} {p : NetlistJson.Draft}

theorem Draft.Registers.registry (h : d.Registers p) : d.registry.Registers p.module :=
  ⟨congrArg NetlistJson.Draft.module h.draft_eq, h.consistent⟩

theorem Draft.Registers.withRegistry (h : d.Registers p) {r : Registry} {m : Module}
    (hr : r.Registers m) : (d.withRegistry r).Registers { p with module := m } := by
  refine ⟨?_, hr.consistent⟩
  rw [← h.draft_eq, ← hr.module_eq]
  rfl

theorem Draft.Registers.settleNet (h : d.Registers p) (net : Nat) (bit : Bit) :
    (d.settleNet net bit).Registers (p.settle net bit) :=
  ⟨congrArg (NetlistJson.Draft.settle · net bit) h.draft_eq, h.consistent⟩

theorem Draft.Registers.home? (h : d.Registers p) (net : Nat) : d.home? net = p.home? net :=
  congrArg (NetlistJson.Draft.home? · net) h.draft_eq

/-! ## Wires -/

def tie (d : Draft) (driven driver : Bit) : ClockNet.Checked Fault Draft := do
  let r ← d.registry.join [driven] [driver]
  .ok (d.withRegistry r)

theorem tie_agrees (h : d.Registers p) (driven driver : Bit) :
    Agrees Draft.Registers (tie d driven driver)
      (.ok (p.modify (·.connect [driven] [driver]))) := by
  obtain ⟨r, he, hr⟩ := h.registry.join (ε := Fault) [driven] [driver] rfl
  rw [tie, he]
  exact .ok (h.withRegistry hr)

def bindBit (d : Draft) (bit : Bit) (j : Json) : ClockNet.Checked Fault Draft :=
  match j.toNat? with
  | some net =>
    match d.home? net with
    | some home => tie d bit home
    | none => .ok (d.settleNet net bit)
  | none => do
    let c ← lift (constBit j)
    tie d bit c

theorem bindBit_agrees (h : d.Registers p) (bit : Bit) (j : Json) :
    Agrees Draft.Registers (bindBit d bit j) (NetlistJson.bindBit p bit j) := by
  unfold bindBit NetlistJson.bindBit
  cases j.toNat? with
  | none =>
    cases constBit j with
    | ok c => exact tie_agrees h bit c
    | error e => exact .refusal e
  | some net =>
    dsimp only
    rw [h.home?]
    cases p.home? net with
    | some home => exact tie_agrees h bit home
    | none => exact .ok (h.settleNet net bit)

def bindBits (d : Draft) (id : WireId) (offset : Nat) :
    List Json → ClockNet.Checked Fault Draft
  | [] => .ok d
  | j :: rest => do
    let d ← bindBit d (.wire id offset) j
    bindBits d id (offset + 1) rest

theorem bindBits_agrees (h : d.Registers p) (id : WireId) (offset : Nat) (bits : List Json) :
    Agrees Draft.Registers (bindBits d id offset bits) (NetlistJson.bindBits p id offset bits) := by
  induction bits generalizing d p offset with
  | nil => exact .ok h
  | cons j rest ih => exact (bindBit_agrees h _ j).bind fun _ _ _ h => ih h (offset + 1)

def bindWire (d : Draft) (name : String) (bits : Json) :
    ClockNet.Checked Fault (WireId × Draft) :=
  if (d.registry.findWire name).isSome then lift (.error (.duplicateNet name d.module.name))
  else do
    let (id, r) ← d.registry.createWire name bits.size
    let d ← bindBits (d.withRegistry r) id 0 bits.items
    .ok (id, d)

theorem bindWire_agrees (h : d.Registers p) (name : String) (bits : Json) :
    Agrees Read (bindWire d name bits) (NetlistJson.bindWire p name bits) := by
  unfold bindWire NetlistJson.bindWire
  rw [h.registry.findWire, Module.addWire?]
  cases hfind : p.module.findWire name with
  | some id =>
    rw [if_pos (by simp), if_neg (by simp), h.draft_eq]
    exact .refusal _
  | none =>
    obtain ⟨r, he, hr⟩ := h.registry.createWire (ε := Fault) hfind bits.size
    rw [if_neg (by simp), if_pos rfl, he, bind_ok]
    exact (bindBits_agrees (h.withRegistry hr) _ _ _).bind fun _ _ _ h => .ok ⟨rfl, h⟩

def updateWire (d : Draft) (id : WireId) (step : Wire → Except Fault Wire) :
    ClockNet.Checked Fault Draft := do
  let w ← d.module.lookupWire id
  let w ← lift (step w)
  let r ← d.registry.updateWire id fun _ => w
  .ok (d.withRegistry r)

theorem updateWire_agrees (h : d.Registers p) {id : WireId} (hid : id < p.module.wires.length)
    {step : Wire → Except Fault Wire} (hname : ∀ w w', step w = .ok w' → w'.name = w.name) :
    Agrees Draft.Registers (updateWire d id step) (NetlistJson.updateWire p id step) := by
  unfold updateWire NetlistJson.updateWire
  rw [h.draft_eq, Module.lookupWire_ok hid, bind_ok]
  refine agrees_lift_bind fun w hw => ?_
  obtain ⟨r, he, hr⟩ := h.registry.updateWire (ε := Fault) hid (f := fun _ => w) (hname _ w hw)
  rw [he]
  exact .ok (h.withRegistry hr)

theorem name_of_importShape {w w' : Wire} {j : Json} (h : importShape w j = .ok w') :
    w'.name = w.name := by
  unfold importShape at h
  dsimp only at h
  split at h
  · cases h
    rfl
  · split at h
    · cases h
      rfl
    · cases h

def importNet (d : Draft) (name : String) (j : Json) : ClockNet.Checked Fault Draft := do
  let (id, d) ← bindWire d name (j.field "bits")
  updateWire d id fun w => do
    let attributes ← importAttributes (j.field "attributes")
    importShape { w with attributes } j

theorem importNet_agrees (h : d.Registers p) (name : String) (j : Json) :
    Agrees Draft.Registers (importNet d name j) (NetlistJson.importNet p name j) := by
  refine (bindWire_agrees h name _).bind fun ⟨id, d⟩ ⟨id', p⟩ hy hxy => ?_
  obtain ⟨rfl, hd⟩ := hxy
  refine updateWire_agrees hd (lt_of_bindWire hy) fun w w' hw => ?_
  obtain ⟨attributes, -, hshape⟩ := Text.of_bind_ok hw
  show w'.name = ({ w with attributes } : Wire).name
  exact name_of_importShape hshape

def importPort (d : Draft) (position : Nat) (direction : Direction) (name : String) (j : Json) :
    ClockNet.Checked Fault Draft := do
  let (id, d) ← match d.registry.findWire name with
    | some id => .ok (id, d)
    | none => bindWire d name (j.field "bits")
  updateWire d id fun w => do
    let w ← importShape w j
    .ok { w with position, isInput := direction.isInput, isOutput := direction.isOutput }

theorem importPort_agrees (h : d.Registers p) (position : Nat) (direction : Direction)
    (name : String) (j : Json) : Agrees Draft.Registers (importPort d position direction name j)
      (NetlistJson.importPort p position direction name j) := by
  have hname : ∀ w w' : Wire, (do
      let w ← importShape w j
      .ok { w with position, isInput := direction.isInput, isOutput := direction.isOutput }) =
        Except.ok w' → w'.name = w.name := by
    intro w w' hw
    obtain ⟨w₁, hshape, hw⟩ := Text.of_bind_ok hw
    cases hw
    show w₁.name = w.name
    exact name_of_importShape hshape
  unfold importPort NetlistJson.importPort
  rw [h.registry.findWire]
  cases hfind : p.module.findWire name with
  | some id => exact updateWire_agrees h (Module.name_of_findWire hfind).1 hname
  | none =>
    refine (bindWire_agrees h name _).bind fun ⟨id, d⟩ ⟨id', p⟩ hy hxy => ?_
    obtain ⟨rfl, hd⟩ := hxy
    exact updateWire_agrees hd (lt_of_bindWire hy) hname

def importPorts (d : Draft) (position : Nat) :
    List (Direction × String × Json) → ClockNet.Checked Fault Draft
  | [] => .ok d
  | (direction, name, j) :: rest => do
    let d ← importPort d position direction name j
    importPorts d (position + 1) rest

theorem importPorts_agrees (h : d.Registers p) (position : Nat)
    (ports : List (Direction × String × Json)) : Agrees Draft.Registers
      (importPorts d position ports) (NetlistJson.importPorts p position ports) := by
  induction ports generalizing d p position with
  | nil => exact .ok h
  | cons port rest ih =>
    exact (importPort_agrees h _ _ _ _).bind fun _ _ _ h => ih h (position + 1)

/-! ## Cells -/

def signalBit (d : Draft) (j : Json) : ClockNet.Checked Fault (Bit × Draft) :=
  match j.toNat? with
  | some net =>
    match d.home? net with
    | some home => .ok (home, d)
    | none => do
      let (name, r) ← d.registry.nextName "$json"
      let (id, r) ← r.createWire name 1
      .ok (.wire id 0, (d.withRegistry r).settleNet net (.wire id 0))
  | none => do
    let c ← lift (constBit j)
    .ok (c, d)

theorem signalBit_agrees (h : d.Registers p) (j : Json) :
    Agrees Read (signalBit d j) (NetlistJson.signalBit p j) := by
  unfold signalBit NetlistJson.signalBit
  cases j.toNat? with
  | none =>
    cases constBit j with
    | ok c => exact .ok ⟨rfl, h⟩
    | error e => exact .refusal e
  | some net =>
    dsimp only
    rw [h.home?]
    cases p.home? net with
    | some home => exact .ok ⟨rfl, h⟩
    | none =>
      obtain ⟨r₁, h₁, hr₁⟩ := h.registry.nextName (ε := Fault) "$json"
      obtain ⟨r₂, h₂, hr₂⟩ := hr₁.createWire (ε := Fault) (Module.findWire_freshName _ _) 1
      dsimp only
      rw [h₁, bind_ok]
      dsimp only
      rw [h₂]
      exact .ok ⟨rfl, (h.withRegistry hr₂).settleNet net _⟩

def signalBits (d : Draft) : List Json → ClockNet.Checked Fault (Signal × Draft)
  | [] => .ok ([], d)
  | j :: rest => do
    let (bit, d) ← signalBit d j
    let (bits, d) ← signalBits d rest
    .ok (bit :: bits, d)

theorem signalBits_agrees (h : d.Registers p) (bits : List Json) :
    Agrees Read (signalBits d bits) (NetlistJson.signalBits p bits) := by
  induction bits generalizing d p with
  | nil => exact .ok ⟨rfl, h⟩
  | cons j rest ih =>
    refine (signalBit_agrees h j).bind fun x y _ hxy => ?_
    refine (ih hxy.2).bind fun xs ys _ hxys => ?_
    exact .ok ⟨congrArg₂ List.cons hxy.1 hxys.1, hxys.2⟩

def importSignal (d : Draft) (j : Json) : ClockNet.Checked Fault (Signal × Draft) :=
  if j.isArray then signalBits d j.items else lift (.error (.expectedBits j))

theorem importSignal_agrees (h : d.Registers p) (j : Json) :
    Agrees Read (importSignal d j) (NetlistJson.importSignal p j) := by
  unfold importSignal NetlistJson.importSignal
  split
  · exact signalBits_agrees h _
  · exact .refusal _

def importConnections (d : Draft) :
    List (String × Json) → ClockNet.Checked Fault (List (String × Signal) × Draft)
  | [] => .ok ([], d)
  | (port, j) :: rest => do
    let (s, d) ← importSignal d j
    let (connections, d) ← importConnections d rest
    .ok ((port, s) :: connections, d)

theorem importConnections_agrees (h : d.Registers p) (fields : List (String × Json)) :
    Agrees Read (importConnections d fields) (NetlistJson.importConnections p fields) := by
  induction fields generalizing d p with
  | nil => exact .ok ⟨rfl, h⟩
  | cons field rest ih =>
    refine (importSignal_agrees h field.2).bind fun x y _ hxy => ?_
    refine (ih hxy.2).bind fun xs ys _ hxys => ?_
    exact .ok ⟨congrArg₂ List.cons (congrArg (Prod.mk field.1) hxy.1) hxys.1, hxys.2⟩

def importCell (d : Draft) (name : String) (j : Json) : ClockNet.Checked Fault Draft := do
  match j.field "type" with
  | .string type =>
    if (d.registry.findCell name).isSome then lift (.error (.duplicateCell name))
    else do
      let (connections, d) ← importConnections d (j.field "connections").fields
      let (id, r) ← d.registry.createCell name type
      let parameters ← lift (importAttributes (j.field "parameters"))
      let attributes ← lift (importAttributes (j.field "attributes"))
      let directions ← lift ((j.field "port_directions").fields.foldlM
        (fun (t : SortedTable Direction) field => t.insert field.1 <$> importDirection field.2)
        .empty)
      let ports := connections.foldl (fun (t : OrderedTable Signal) c => t.set c.1 c.2) .empty
      let r ← r.updateCell id ({ · with parameters, attributes, directions, ports })
      .ok (d.withRegistry r)
  | _ => lift (.error (.missingType name))

theorem importCell_agrees (h : d.Registers p) (name : String) (j : Json) :
    Agrees Draft.Registers (importCell d name j) (NetlistJson.importCell p name j) := by
  unfold importCell NetlistJson.importCell
  cases j.field "type" with
  | string type =>
    dsimp only
    rw [h.registry.findCell]
    cases hfind : p.module.findCell name with
    | some id => exact .refusal _
    | none =>
      rw [if_neg (by simp), if_neg (by simp)]
      refine (importConnections_agrees h _).bind fun x y hy hxy => ?_
      obtain ⟨hports, hd⟩ := hxy
      -- the wires that have been added are no cells
      have hnew : y.2.module.findCell name = none := by
        rw [Module.findCell, cells_importConnections hy]
        exact hfind
      obtain ⟨r₁, h₁, hr₁⟩ := hd.registry.createCell (ε := Fault) hnew type
      rw [h₁, bind_ok]
      refine agrees_lift_bind fun parameters _ => ?_
      refine agrees_lift_bind fun attributes _ => ?_
      refine agrees_lift_bind fun directions _ => ?_
      obtain ⟨r₂, h₂, hr₂⟩ := hr₁.updateCell_addCell (ε := Fault) (f := ({ · with
        parameters, attributes, directions
        ports := x.1.foldl (fun (t : OrderedTable Signal) c => t.set c.1 c.2) .empty })) rfl
      rw [h₂, ← hports]
      exact .ok (hd.withRegistry hr₂)
  | null | bool | number | array | object => exact .refusal _

end

/-! ## Modules and designs -/

def importModule (r : Registry) (j : Json) : ClockNet.Checked Fault Registry := do
  let attributes ← lift (importAttributes (j.field "attributes"))
  let ports ← lift ((j.field "ports").fields.mapM fun field =>
    (·, field.1, field.2) <$> importDirection (field.2.field "direction"))
  let bare := r.withModule ({ · with attributes })
  let d ← (j.field "netnames").fields.foldlM (fun d field => importNet d field.1 field.2)
    { module := bare.module, wireNames := bare.wireNames, cellNames := bare.cellNames : Draft }
  let d ← importPorts d 1 ports
  let d ← (j.field "cells").fields.foldlM (fun d field => importCell d field.1 field.2) d
  d.registry.renumber

theorem importModule_agrees (name : String) (j : Json) :
    Agrees Registry.Registers (importModule (.new name) j) (NetlistJson.importModule name j) := by
  refine agrees_lift_bind fun attributes _ => ?_
  refine agrees_lift_bind fun ports _ => ?_
  have hstart : Draft.Registers { module := { name, attributes } }
      { module := { name, attributes } } := ⟨rfl, .nil, .nil⟩
  have hnets := Agrees.foldlM hstart (l := (j.field "netnames").fields)
    (fun _ _ h field _ => importNet_agrees h field.1 field.2)
  refine hnets.bind fun _ _ _ h => ?_
  refine (importPorts_agrees h 1 ports).bind fun _ _ _ h => ?_
  have hcells := Agrees.foldlM h (l := (j.field "cells").fields)
    (fun _ _ h field _ => importCell_agrees h field.1 field.2)
  refine hcells.bind fun _ _ _ h => ?_
  exact agrees_ok.mpr h.registry.renumber

def addModule (d : Registries) (field : String × Json) : ClockNet.Checked Fault Registries :=
  if (d.find? field.1).isSome then lift (.error (.duplicateModule field.1))
  else do
    let d ← d.create field.1
    let r ← importModule (.new field.1) field.2
    .ok (d.put field.1 r)

theorem addModule_agrees {d : Registries} {p : Design} (h : d.Registers p)
    (field : String × Json) : Agrees Registries.Registers (addModule d field)
      (if (p.find? field.1).isSome then .error (.duplicateModule field.1)
        else p.add <$> NetlistJson.importModule field.1 field.2) := by
  unfold addModule
  rw [h.find?_eq, Option.isSome_map]
  cases hfind : d.find? field.1 with
  | some r => exact .refusal _
  | none =>
    rw [if_neg (by simp), if_neg (by simp), Registries.create_ok hfind, bind_ok]
    refine (importModule_agrees field.1 field.2).bind fun r m hm hr => ?_
    -- the module has kept its name, which is new
    obtain ⟨hname, -⟩ := imported_of_importModule hm
    have hnew : p.find? m.name = none := by
      rw [hname, h.find?_eq, hfind]
      rfl
    rw [← hname]
    exact .ok (h.add hr hnew)

def importDesign (j : Json) : ClockNet.Checked Fault Registries :=
  if (j.field "modules").isObject then (j.field "modules").fields.foldlM addModule {}
  else lift (.error .missingModules)

/-- An import never fails an assertion, and what is imported is registered by its names. -/
theorem importDesign_agrees (j : Json) :
    Agrees Registries.Registers (importDesign j) (NetlistJson.importDesign j) := by
  unfold importDesign NetlistJson.importDesign
  split
  · exact Agrees.foldlM .empty fun _ _ h field _ => addModule_agrees h field
  · exact .refusal _

end ClockNet.NetlistJson.Checked

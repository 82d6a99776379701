import ClockNet.Module

/-! Modules together with the maps that look-ups by name go through. Names stand in two places
then, with the wires and cells and in the maps, and whatever adds or renames has to write both.
Operations are refused, with no result, where an id is out of range, a name is in use already or
the two sides of a connection differ in length; arenas may grow without bound. -/

namespace ClockNet

/-- A module with the maps from the names of its wires and cells to their ids. -/
structure Registry where
  module : Module
  wireNames : OrderedTable WireId := .empty
  cellNames : OrderedTable CellId := .empty
deriving DecidableEq

/-- What may be changed of a wire in place: all but its name and its width. -/
structure WireFlags where
  offset : Int := 0
  upto : Bool := false
  signed : Bool := false
  isInput : Bool := false
  isOutput : Bool := false
  position : Nat := 0
  attributes : Attributes := .empty
deriving DecidableEq

def Wire.withFlags (w : Wire) (f : WireFlags) : Wire :=
  { w with
    offset := f.offset, upto := f.upto, signed := f.signed, isInput := f.isInput
    isOutput := f.isOutput, position := f.position, attributes := f.attributes }

namespace Registry

def new (name : String) : Registry := { module := { name } }

def findWire (r : Registry) (name : String) : Option WireId := r.wireNames.get? name

def findCell (r : Registry) (name : String) : Option CellId := r.cellNames.get? name

def withModule (r : Registry) (f : Module → Module) : Registry := { r with module := f r.module }

/-- Appends a wire under a name that the map does not have. -/
def addWire (r : Registry) (w : Wire) : Option (WireId × Registry) :=
  if (r.findWire w.name).isSome then none
  else
    let id := r.module.wires.length
    some (id, { r with module := r.module.addWire w, wireNames := r.wireNames.set w.name id })

/-- Appends a wire of the shape, role and attributes of another one. -/
def addWireLike (r : Registry) (name : String) (template : WireId) :
    Option (WireId × Registry) :=
  if template < r.module.wires.length then r.addWire (r.module.wireLike name template) else none

/-- Appends a cell under a name that the map does not have. -/
def addCell (r : Registry) (c : Cell) : Option (CellId × Registry) :=
  if (r.findCell c.name).isSome then none
  else
    let id := r.module.cells.length
    some (id, { r with module := r.module.addCell c, cellNames := r.cellNames.set c.name id })

/-- Uses up one number after another until one gives a name that neither map has. There is no
bound on the rounds: a search without end would have no result. -/
def freshName (r : Registry) (stem : String) : Option (String × Registry) :=
  let name := Module.numbered stem r.module.nextNumber
  let r := r.withModule fun m => { m with nextNumber := m.nextNumber + 1 }
  if (r.findWire name).isNone && (r.findCell name).isNone then some (name, r)
  else r |>.freshName stem
partial_fixpoint

/-- Exchanges the names of two wires, and what the map has for them. A wire is left alone if it is
exchanged with itself. -/
def swapNames (r : Registry) (a b : WireId) : Option Registry :=
  if a = b then some r
  else if a < r.module.wires.length ∧ b < r.module.wires.length then
    let nameA := (r.module.wire a).name
    let nameB := (r.module.wire b).name
    some { r with
      module := r.module.swapNames a b
      wireNames := (r.wireNames.set nameA b).set nameB a }
  else none

end Registry

/-- An operation on a module. -/
inductive Edit where
  | addWire (name : String) (width : Nat)
  | addWireLike (name : String) (template : WireId)
  | addCell (name type : String)
  | freshName (stem : String)
  | swapNames (a b : WireId)
  | connect (driven driver : Signal)
  | setPort (cell : CellId) (port : String) (signal : Signal)
  | setFlags (wire : WireId) (flags : WireFlags)
  | renumberPorts
deriving DecidableEq

/-- What an operation hands out. -/
inductive Reply where
  | wire (id : WireId)
  | cell (id : CellId)
  | name (text : String)
  | done
deriving DecidableEq

def Reply.name? : Reply → Option String
  | name text => some text
  | _ => none

namespace Edit

def apply (r : Registry) : Edit → Option (Reply × Registry)
  | addWire name width => (r.addWire { name, width }).map fun (id, r) => (.wire id, r)
  | addWireLike name template => (r.addWireLike name template).map fun (id, r) => (.wire id, r)
  | addCell name type => (r.addCell { name, type }).map fun (id, r) => (.cell id, r)
  | freshName stem => (r.freshName stem).map fun (text, r) => (.name text, r)
  | swapNames a b => (r.swapNames a b).map fun r => (.done, r)
  | connect driven driver => (r.module.connect? driven driver).map fun m =>
      (.done, { r with module := m })
  | setPort cell port signal =>
    if cell < r.module.cells.length then
      some (.done, r.withModule (·.modifyCell cell (·.setPort port signal)))
    else none
  | setFlags wire flags =>
    if wire < r.module.wires.length then
      some (.done, r.withModule (·.modifyWire wire (·.withFlags flags)))
    else none
  | renumberPorts => some (.done, r.withModule (·.renumberPorts))

/-- Carries out an operation on a module without maps, where names are looked up in the wires and
cells themselves. -/
def applyBare (m : Module) : Edit → Option (Reply × Module)
  | addWire name width => (m.addWire? { name, width }).map fun m' =>
      (.wire m.wires.length, m')
  | addWireLike name template =>
    if template < m.wires.length then
      (m.addWire? (m.wireLike name template)).map fun m' => (.wire m.wires.length, m')
    else none
  | addCell name type => (m.addCell? { name, type }).map fun m' => (.cell m.cells.length, m')
  | freshName stem => some (.name (m.freshName stem).1, (m.freshName stem).2)
  | swapNames a b =>
    if a = b ∨ a < m.wires.length ∧ b < m.wires.length then some (.done, m.swapNames a b)
    else none
  | connect driven driver => (m.connect? driven driver).map fun m => (.done, m)
  | setPort cell port signal =>
    if cell < m.cells.length then some (.done, m.modifyCell cell (·.setPort port signal)) else none
  | setFlags wire flags =>
    if wire < m.wires.length then some (.done, m.modifyWire wire (·.withFlags flags)) else none
  | renumberPorts => some (.done, m.renumberPorts)

/-- Carries out operations, one after another, and collects what they hand out; `step` carries out
a single one. -/
def perform (step : σ → Edit → Option (Reply × σ)) : List Edit → σ → Option (List Reply × σ)
  | [], s => some ([], s)
  | e :: rest, s => do
    let (reply, s) ← step s e
    let (replies, s) ← perform step rest s
    some (reply :: replies, s)

end Edit

end ClockNet

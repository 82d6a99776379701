import ClockNet.Cell
import ClockNet.Wire

/-! Modules: wires and cells in order of creation, connections between signals, and a
port list. Wires and cells are referred to by their place, which never changes; names are
unique among the wires and among the cells of a module. -/

namespace ClockNet

/-- A container of wires, cells and connections. -/
structure Module where
  name : String
  attributes : Attributes := .empty
  wires : List Wire := []
  cells : List Cell := []
  /-- Pairs of a driven signal and the signal that drives it. -/
  connections : List (Signal × Signal) := []
  /-- The port wires in order of their positions. -/
  ports : List WireId := []
  /-- The number that the next fresh name tries first. -/
  nextNumber : Nat := 1
deriving DecidableEq

namespace Module

instance : Inhabited Module := ⟨{ name := "" }⟩

/-! ### Attributes -/

def isTop (m : Module) : Bool := m.attributes.flag Attribute.top

/-- A module whose contents are not to be looked into. -/
def isBlackbox (m : Module) : Bool :=
  m.attributes.flag Attribute.blackbox || m.attributes.flag Attribute.whitebox

/-! ### Wires -/

/-- The wire with an id; a wire without bits or name where there is none. -/
def wire (m : Module) (id : WireId) : Wire := m.wires[id]?.getD default

/-- The wire of a name, by a search through all of them. The map that a `Registry` keeps gives the
same one. -/
def findWire (m : Module) (name : String) : Option WireId :=
  m.wires.findIdx? (·.name == name)

/-- The ids of all wires, in order of creation. -/
def wireIds (m : Module) : List WireId := List.range m.wires.length

def wireSignal (m : Module) (id : WireId) : Signal := Signal.ofWire id (m.wire id).width

/-- Appends a wire; its id is the number of wires before. -/
def addWire (m : Module) (w : Wire) : Module := { m with wires := m.wires ++ [w] }

/-- Appends a wire whose name no other wire has. -/
def addWire? (m : Module) (w : Wire) : Option Module :=
  if m.findWire w.name = none then some (m.addWire w) else none

/-- A wire of the same shape, port role and attributes under another name. -/
def wireLike (m : Module) (name : String) (id : WireId) : Wire := { m.wire id with name }

def modifyWire (m : Module) (id : WireId) (f : Wire → Wire) : Module :=
  { m with wires := m.wires.modify id f }

/-- Exchanges the names of two wires and leaves all else in place. -/
def swapNames (m : Module) (a b : WireId) : Module :=
  let nameA := (m.wire a).name
  let nameB := (m.wire b).name
  (m.modifyWire a ({ · with name := nameB })).modifyWire b ({ · with name := nameA })

/-! ### Cells -/

/-- The cell with an id; a cell without ports or name where there is none. -/
def cell (m : Module) (id : CellId) : Cell := m.cells[id]?.getD default

/-- The cell of a name, by a search as well. -/
def findCell (m : Module) (name : String) : Option CellId :=
  m.cells.findIdx? (·.name == name)

/-- Appends a cell; its id is the number of cells before. -/
def addCell (m : Module) (c : Cell) : Module := { m with cells := m.cells ++ [c] }

/-- Appends a cell whose name no other cell has. -/
def addCell? (m : Module) (c : Cell) : Option Module :=
  if m.findCell c.name = none then some (m.addCell c) else none

def modifyCell (m : Module) (id : CellId) (f : Cell → Cell) : Module :=
  { m with cells := m.cells.modify id f }

/-! ### Fresh names -/

def numbered (stem : String) (n : Nat) : String := stem ++ "$" ++ toString n

/-- The names in use for wires and cells. -/
def names (m : Module) : List String := m.wires.map (·.name) ++ m.cells.map (·.name)

/-- The first number from `n` on, among the `tries` next ones, that gives an unused name;
the number after them if all are in use. -/
def unusedNumber (used : List String) (stem : String) : (tries n : Nat) → Nat
  | 0, n => n
  | tries + 1, n =>
    if numbered stem n ∈ used then unusedNumber used stem tries (n + 1) else n

/-- A name that no wire or cell has, and the module with the number used up. There are as
many tries as names in use, and one number more than that cannot all be taken. -/
def freshName (m : Module) (stem : String) : String × Module :=
  let n := unusedNumber m.names stem m.names.length m.nextNumber
  (numbered stem n, { m with nextNumber := n + 1 })

/-! ### Connections -/

/-- Makes two signals aliases, the first driven by the second. -/
def connect (m : Module) (driven driver : Signal) : Module :=
  { m with connections := m.connections ++ [(driven, driver)] }

/-- Connects two signals of one length. -/
def connect? (m : Module) (driven driver : Signal) : Option Module :=
  if driven.length = driver.length then some (m.connect driven driver) else none

/-- Every bit of the signal that is no constant belongs to a wire of the module. -/
def resolves (m : Module) (s : Signal) : Bool :=
  s.all fun b => b.wire?.all fun id => decide (id < m.wires.length)

/-! ### Ports -/

/-- The port wires in the order that their positions and names give. -/
def sortedPorts (m : Module) : List WireId :=
  (m.wireIds.filter fun id => (m.wire id).isPort).mergeSort fun a b =>
    (m.wire a).comesBefore (m.wire b)

/-- Recomputes the port list from the flags of the wires and numbers it from 1. Ports
keep their relative order; new ones are appended by name. -/
def renumberPorts (m : Module) : Module :=
  let ports := m.sortedPorts
  let wires := m.wires.mapIdx fun id w =>
    { w with position := if w.isPort then ports.idxOf id + 1 else 0 }
  { m with wires, ports }

end Module

end ClockNet

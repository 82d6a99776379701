import ClockNet.Attribute
import ClockNet.Direction
import ClockNet.Signal
import ClockNet.Table.Ordered

/-! Cells: instances of a module of the design or of a primitive type, with a signal on
each connected port. -/

namespace ClockNet

/-- A cell of a module, by the order in which the cells were added. -/
abbrev CellId := Nat

/-- An instance of a cell type. -/
structure Cell where
  name : String
  type : String
  parameters : Attributes := .empty
  attributes : Attributes := .empty
  /-- The connected ports, in order of their first connection. -/
  ports : OrderedTable Signal := .empty
  /-- Directions recorded with the instance, for types that are no module of the design. -/
  directions : SortedTable Direction := .empty
deriving DecidableEq

namespace Cell

instance : Inhabited Cell := ⟨{ name := "", type := "" }⟩

/-- Connects a port, in place of an earlier connection. -/
def setPort (c : Cell) (port : String) (signal : Signal) : Cell :=
  { c with ports := c.ports.set port signal }

def setDirection (c : Cell) (port : String) (direction : Direction) : Cell :=
  { c with directions := c.directions.insert port direction }

end Cell

end ClockNet

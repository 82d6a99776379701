import ClockNet.Selection
import ClockNet.Text.Split

/-! What the insertion of clock buffers is told: the cell types to insert and their ports,
the wires to consider, and how clocks made by logic are told from other clocks. -/

namespace ClockNet.Buffering

/-- A cell type with the names of its output and its input. -/
structure BufferSpec where
  type : String
  output : String
  input : String
deriving DecidableEq, Inhabited

inductive OptionError where
  /-- Neither a buffer nor a pad is given. -/
  | noCellType
  /-- A cell type or one of its ports has no name. -/
  | invalidBuffer (type ports : String)
deriving DecidableEq, Inhabited

namespace OptionError

def message : OptionError → String
  | noCellType => "either a buffer or an input pad cell type is required"
  | invalidBuffer type ports =>
    "invalid buffer cell specification \x60" ++ type ++ " " ++ ports ++ "\x60"

end OptionError

namespace BufferSpec

/-- Reads a pair of ports written `output:input`; a single name is used for both. -/
def parse (type ports : String) : Except OptionError BufferSpec :=
  let (output, input) := (Text.splitString ':' ports).getD (ports, ports)
  if type = "" || output = "" || input = "" then .error (.invalidBuffer type ports)
  else .ok { type, output, input }

end BufferSpec

/-- Finds clocks made by logic: the clock port of a cell type, where a cell drives it that
is not an input buffer. Such a clock gets a buffer type of its own. -/
structure GeneratedClock where
  type : String
  clockPort : String
  /-- The type and the output port of the input buffer. -/
  inputBuffer : Option (String × String) := none
  bufferType : String
deriving DecidableEq, Inhabited

structure Options where
  buffer : Option BufferSpec := none
  pad : Option BufferSpec := none
  /-- The wires to consider; without it all that are not marked to be left alone. -/
  selection : Option Selection := none
  /-- Cell types whose outputs count as driving no clock. -/
  exempt : List String := []
  generatedClock : Option GeneratedClock := none
deriving DecidableEq, Inhabited

namespace Options

def eligible (o : Options) (m : Module) (w : Wire) : Bool :=
  match o.selection with
  | some s => s.selectsWire m w
  | none => !w.attributes.flag Attribute.inhibit

end Options

end ClockNet.Buffering

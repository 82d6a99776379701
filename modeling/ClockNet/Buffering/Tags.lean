import ClockNet.Buffering.Options

/-! What is known of the ports of cell types while a run goes from module to module. Ports
of black boxes are tagged by their attributes, the outputs of the configured cell types as
buffered, and a module that has been visited publishes the state of its own ports. -/

namespace ClockNet.Buffering

structure PortBit where
  type : String
  port : String
  index : Nat
deriving DecidableEq, Inhabited

structure Tags where
  /-- Bits that need a buffered clock. -/
  sinks : List PortBit := []
  /-- Bits driven by a clock buffer. -/
  buffered : List PortBit := []
  /-- Outputs that follow an input, inverted, with the name of the input port; the bit has
  the same index there. The latest entry for a bit counts. -/
  inverters : List (PortBit × String) := []
  /-- Types of cells that lie on a clock path in a module visited so far. -/
  clocked : List String := []
deriving DecidableEq, Inhabited

namespace Tags

def addSink (t : Tags) (p : PortBit) : Tags := { t with sinks := t.sinks.insert p }

def addBuffered (t : Tags) (p : PortBit) : Tags := { t with buffered := t.buffered.insert p }

def addInverter (t : Tags) (p : PortBit) (input : String) : Tags :=
  { t with inverters := (p, input) :: t.inverters }

def addClocked (t : Tags) (type : String) : Tags := { t with clocked := t.clocked.insert type }

def inverterInput? (t : Tags) (p : PortBit) : Option String :=
  (t.inverters.find? (·.1 == p)).map (·.2)

/-- The output of a buffer cell that the run itself inserts. -/
def addBufferType (t : Tags) (b : BufferSpec) : Tags := t.addBuffered ⟨b.type, b.output, 0⟩

def bitsOf (m : Module) (w : Wire) : List PortBit :=
  (List.range w.width).map fun i => ⟨m.name, w.name, i⟩

/-- The tags that the attributes of a port give. -/
def addPort (m : Module) (t : Tags) (w : Wire) : Tags :=
  let t := if w.attributes.flag Attribute.driver then (bitsOf m w).foldl addBuffered t else t
  let t := if w.attributes.flag Attribute.sink then (bitsOf m w).foldl addSink t else t
  match w.attributes.get? Attribute.inverts with
  | some input => (bitsOf m w).foldl (fun t p => t.addInverter p input.toText) t
  | none => t

def addBlackbox (t : Tags) (m : Module) : Tags := (m.ports.map m.wire).foldl (addPort m) t

end Tags

end ClockNet.Buffering

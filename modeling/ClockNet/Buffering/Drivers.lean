import ClockNet.Buffering.Options
import ClockNet.Buffering.Report
import ClockNet.Design
import ClockNet.Rtlil.Printer

/-! The bits that cells of a module drive, as they are connected and not by their nets, and
those among them that are clocks made by logic. -/

namespace ClockNet.Buffering

/-- The bits connected to output ports of cells whose type is not exempt. -/
def drivenBits (o : Options) (signatures : Signatures) (m : Module) : List Bit :=
  (m.cells.filter fun c => !o.exempt.contains c.type).flatMap fun c =>
    (c.ports.entries.filter fun e => signatures.isOutput c e.1).flatMap (·.2)

namespace GeneratedClock

def bufferedBits (g : GeneratedClock) (m : Module) : List Bit :=
  match g.inputBuffer with
  | none => []
  | some (type, output) =>
    (m.cells.filter (·.type = type)).flatMap fun c => (c.ports.get? output).getD []

/-- The bits connected to the clock ports of the rule's cell type, where they are inputs. -/
def clockBits (g : GeneratedClock) (signatures : Signatures) (m : Module) : List Bit :=
  (m.cells.filter fun c => c.type = g.type && signatures.isInput c g.clockPort).flatMap fun c =>
    (c.ports.get? g.clockPort).getD []

/-- The clock bits that a cell drives and no input buffer, each once, in the order in which
they are met. -/
def bits (g : GeneratedClock) (signatures : Signatures) (m : Module) (driven : List Bit) :
    List Bit :=
  ((g.clockBits signatures m).filter fun b =>
    driven.contains b && !(g.bufferedBits m).contains b).eraseDups

end GeneratedClock

/-- The generated clocks of a module; none without a rule. -/
def generatedBits (o : Options) (signatures : Signatures) (m : Module) (driven : List Bit) :
    List Bit :=
  match o.generatedClock with
  | some g => g.bits signatures m driven
  | none => []

def generatedEvents (m : Module) (generated : List Bit) : List Event :=
  generated.map fun b => .generatedClock (Rtlil.spellSignal m [b]) m.name

end ClockNet.Buffering

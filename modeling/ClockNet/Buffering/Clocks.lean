import ClockNet.Alias
import ClockNet.Buffering.Tags

/-! The clock nets of a module: which need a buffer and which have one. Both follow from
the tags of the cell ports on a net; an inverter hands the need of its output over to its
input, and the buffer of its input on to its output. -/

namespace ClockNet.Buffering

/-- Nets of a module, each by the bit that stands for it. -/
structure Clocks where
  /-- Nets that need a buffered clock. -/
  sinks : List Bit := []
  /-- Nets driven by a clock buffer. -/
  buffered : List Bit := []
deriving DecidableEq, Inhabited

/-- An inverter, by the nets of its output and its input. -/
structure Inverter where
  output : Bit
  input : Bit
deriving DecidableEq, Inhabited

namespace Clocks

/-- Hands on what one inverter has to: its output is buffered if its input is; an output
that needs a buffer counts as buffered, and the input needs one instead. -/
def passInverter (c : Clocks) (i : Inverter) : Clocks :=
  let c := if i.input ∈ c.buffered then { c with buffered := c.buffered.insert i.output } else c
  if i.output ∈ c.sinks ∧ i.output ∉ c.buffered then
    { sinks := c.sinks.insert i.input, buffered := c.buffered.insert i.output }
  else c

def sweep (inverters : List Inverter) (c : Clocks) : Clocks := inverters.foldl passInverter c

/-- Sweeps until nothing changes. A sweep that changes something marks the output of one
more inverter as buffered, so there are no more such sweeps than inverters. -/
def settle (inverters : List Inverter) (c : Clocks) : Clocks :=
  inverters.length.repeat (sweep inverters) c

/-- Hands on what one inverter has to, and notes whether that marked a net. -/
def passNoting (state : Bool × Clocks) (i : Inverter) : Bool × Clocks :=
  let (changed, c) := state
  let (changed, c) :=
    if i.input ∈ c.buffered ∧ i.output ∉ c.buffered then
      (true, { c with buffered := c.buffered.insert i.output })
    else (changed, c)
  if i.output ∈ c.sinks ∧ i.output ∉ c.buffered then
    (true, { sinks := c.sinks.insert i.input, buffered := c.buffered.insert i.output })
  else (changed, c)

/-- Hands on along all inverters until a sweep notes no change. -/
def propagate (c : Clocks) (inverters : List Inverter) : Option Clocks :=
  match inverters.foldl passNoting (false, c) with
  | (true, c) => c |>.propagate inverters
  | (false, c) => some c
partial_fixpoint

end Clocks

/-- What the cells of a module show of its clocks. -/
structure Survey where
  clocks : Clocks := {}
  /-- The inverters, the last one first. -/
  inverters : List Inverter := []
  /-- Types of the cells found on a clock path. -/
  clocked : List String := []
deriving DecidableEq, Inhabited

namespace Survey

def addSink (s : Survey) (c : Cell) (net : Bit) : Survey :=
  { s with
    clocks := { s.clocks with sinks := s.clocks.sinks.insert net }
    clocked := s.clocked.insert c.type }

def addBuffered (s : Survey) (net : Bit) : Survey :=
  { s with clocks := { s.clocks with buffered := s.clocks.buffered.insert net } }

def addInverter (s : Survey) (c : Cell) (i : Inverter) : Survey :=
  { s with inverters := i :: s.inverters, clocked := s.clocked.insert c.type }

def portBit? (c : Cell) (port : String) (index : Nat) : Option Bit :=
  (c.ports.get? port).bind (·[index]?)

def addBit (tags : Tags) (aliases : AliasMap) (c : Cell) (port : String) (s : Survey)
    (bit : Bit × Nat) : Survey :=
  let p : PortBit := ⟨c.type, port, bit.2⟩
  let net := aliases.root bit.1
  let s := if p ∈ tags.sinks then s.addSink c net else s
  let s := if p ∈ tags.buffered then s.addBuffered net else s
  match (tags.inverterInput? p).bind fun input => portBit? c input bit.2 with
  | some input => s.addInverter c ⟨net, aliases.root input⟩
  | none => s

def addCell (tags : Tags) (aliases : AliasMap) (s : Survey) (c : Cell) : Survey :=
  c.ports.entries.foldl (fun s e => e.2.zipIdx.foldl (addBit tags aliases c e.1) s) s

def ofModule (tags : Tags) (aliases : AliasMap) (m : Module) : Survey :=
  m.cells.foldl (addCell tags aliases) {}

def settled (s : Survey) : Clocks := s.clocks.settle s.inverters.reverse

end Survey

/-- The clock nets of a module, by the loop. -/
def classify (tags : Tags) (aliases : AliasMap) (m : Module) : Option Clocks :=
  let s := Survey.ofModule tags aliases m
  s.clocks.propagate s.inverters.reverse

end ClockNet.Buffering

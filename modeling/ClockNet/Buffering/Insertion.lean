import ClockNet.Buffering.Clocks
import ClockNet.Buffering.Drivers

/-! Inserting buffers and pads into a module. Each goes between a net and its driver: its
output takes over the net, its input is a new wire that the driver is moved onto later. An
input port that gets a buffer is replaced by a new wire, which feeds the inserted cell. -/

namespace ClockNet.Buffering

/-- What is known of a module before anything is inserted. -/
structure Scene where
  options : Options
  signatures : Signatures
  /-- Inputs behind a pad get a buffer as well. -/
  buffersInputs : Bool
  aliases : AliasMap
  clocks : Clocks
  driven : List Bit
  generated : List Bit
deriving DecidableEq

/-- An inserted cell and the wire that feeds it. -/
structure Placement where
  cell : CellId
  feed : WireId
deriving DecidableEq, Inhabited

/-- The state of a run within one module. -/
structure Insertion where
  module : Module
  tags : Tags := {}
  stats : Stats := {}
  events : List Event := []
  /-- The cell that drives a net now, with the wire the old driver is moved onto. The
  latest entry for a net counts. -/
  placed : List (Bit × Placement) := []
  /-- Replaced input ports, each with the wire in its place. -/
  replaced : List (WireId × WireId) := []
deriving DecidableEq, Inhabited

def stem : String := "$clkbufmap"

/-- A buffer cell with its output on a bit and its input on a wire. -/
def bufferCell (name type : String) (spec : BufferSpec) (output : Bit) (feed : WireId) :
    Cell :=
  ((({ name, type : Cell }.setPort spec.output [output]).setPort spec.input
    [.wire feed 0]).setDirection spec.output .output).setDirection spec.input .input

/-- Adds a buffer cell that drives a bit, and the wire that feeds it. -/
def addBuffer (m : Module) (type : String) (spec : BufferSpec) (output : Bit) :
    Placement × Module :=
  let (name, m) := m.freshName stem
  let place : Placement := ⟨m.cells.length, m.wires.length⟩
  let m := m.addCell (bufferCell name type spec output place.feed)
  let (name, m) := m.freshName stem
  (place, m.addWire { name, width := 1 })

namespace Insertion

def placedOn? (s : Insertion) (net : Bit) : Option Placement :=
  (s.placed.find? (·.1 == net)).map (·.2)

def insertCell (s : Insertion) (type : String) (spec : BufferSpec) (w : Wire) (index : Nat)
    (output : Bit) : Placement × Insertion :=
  let (place, m) := addBuffer s.module type spec output
  (place, { s with
    module := m
    events := s.events ++ [.inserting type s.module.name w.name index] })

/-- Inserts a pad in front of a buffer, or in front of the net where there is none. -/
def insertPad (s : Insertion) (pad : BufferSpec) (w : Wire) (index : Nat) (net : Bit)
    (buffer : Option Placement) : Placement × Insertion :=
  let output := match buffer with
    | some b => .wire b.feed 0
    | none => net
  let (place, s) := s.insertCell pad.type pad w index output
  (⟨(buffer.map (·.cell)).getD place.cell, place.feed⟩,
    { s with stats := { s.stats with pads := s.stats.pads + 1 } })

/-- Inserts a buffer on a net, of the type for generated clocks where the bit is one. -/
def insertBuffer (e : Scene) (s : Insertion) (buffer : BufferSpec) (w : Wire) (index : Nat)
    (bit net : Bit) : Placement × Insertion :=
  let type := match e.options.generatedClock with
    | some g => if bit ∈ e.generated then g.bufferType else buffer.type
    | none => buffer.type
  let (place, s) := s.insertCell type buffer w index net
  (place, { s with stats := { s.stats with buffers := s.stats.buffers + 1 } })

def isTopInput (m : Module) (w : Wire) : Bool := w.isInput && m.isTop

def padFor? (e : Scene) (m : Module) (w : Wire) : Option BufferSpec :=
  if isTopInput m w then e.options.pad else none

/-- The buffer for a wire, if it takes one: an output port does not, and an input behind a
pad does only if the pad does not drive a clock by itself. -/
def bufferFor? (e : Scene) (m : Module) (w : Wire) : Option BufferSpec :=
  if w.isOutput || ((padFor? e m w).isSome && !e.buffersInputs) then none
  else e.options.buffer

/-- Inserts what a driven net that needs a clock takes at a bit of a wire. -/
def drive (e : Scene) (s : Insertion) (w : Wire) (index : Nat) (bit net : Bit) : Insertion :=
  let (place, s) : Option Placement × Insertion := match bufferFor? e s.module w with
    | some buffer =>
      let (place, s) := insertBuffer e s buffer w index bit net
      (some place, s)
    | none => (none, s)
  let (place, s) : Option Placement × Insertion := match padFor? e s.module w with
    | some pad =>
      let (place, s) := s.insertPad pad w index net place
      (some place, s)
    | none => (place, s)
  match place with
  | some p => { s with placed := (net, p) :: s.placed }
  | none => s

def publishSink (s : Insertion) (w : Wire) (index : Nat) : Insertion :=
  { s with tags := s.tags.addSink ⟨s.module.name, w.name, index⟩ }

def publishBuffered (s : Insertion) (w : Wire) (index : Nat) : Insertion :=
  { s with tags := s.tags.addBuffered ⟨s.module.name, w.name, index⟩ }

/-- A bit at which a net has a driver to put a buffer behind. -/
def hasDriver (e : Scene) (m : Module) (w : Wire) (bit : Bit) : Bool :=
  e.driven.contains bit || isTopInput m w

/-- A bit of a wire whose net needs a clock and has none, at a driver. -/
def needsDriver (e : Scene) (m : Module) (w : Wire) (bit : Bit) : Bool :=
  let net := e.aliases.root bit
  !e.clocks.buffered.contains net && e.clocks.sinks.contains net && hasDriver e m w bit

def visitBit (e : Scene) (id : WireId) (w : Wire) (s : Insertion) (index : Nat) : Insertion :=
  let bit := Bit.wire id index
  let net := e.aliases.root bit
  if e.clocks.buffered.contains net then
    if w.isOutput then s.publishBuffered w index else s
  else if !e.clocks.sinks.contains net then s
  else if hasDriver e s.module w bit then drive e s w index bit net
  else if w.isInput then s.publishSink w index
  else s

/-- Connects one bit of the wire in the place of an input port: to the wire that feeds the
inserted cell, or, where nothing was inserted, to the bit of the port. -/
def connectReplacement (e : Scene) (id new : WireId) (s : Insertion) (index : Nat) :
    Insertion :=
  let source := Bit.wire new index
  let target := match s.placedOn? (e.aliases.root (.wire id index)) with
    | some p => Bit.wire p.feed 0
    | none => .wire id index
  { s with module := s.module.connect [target] [source] }

/-- Puts a new wire in the place of an input port. The names are exchanged later. -/
def replaceInput (e : Scene) (id : WireId) (w : Wire) (s : Insertion) : Insertion :=
  let (name, m) := s.module.freshName stem
  let new := m.wires.length
  let s := { s with module := m.addWire (m.wireLike name id) }
  let s := w.foldPlaces (connectReplacement e id new) s
  { s with replaced := s.replaced ++ [(id, new)] }

/-- Deals with one wire. An inout port is left alone; an output that is not eligible counts
as buffered, which keeps buffers off it in the modules above. -/
def visitWire (e : Scene) (s : Insertion) (id : WireId) : Insertion :=
  let w := s.module.wire id
  if w.isInput && w.isOutput then s
  else if !e.options.eligible s.module w then
    if w.isOutput then w.foldPlaces (fun s i => s.publishBuffered w i) s else s
  else
    let replaces := w.isInput && w.anyPlace fun i => needsDriver e s.module w (.wire id i)
    let s := w.foldPlaces (visitBit e id w) s
    if replaces then s.replaceInput e id w else s

/-- Deals with all wires that a module has at the start. -/
def visitWires (e : Scene) (s : Insertion) : Insertion :=
  s.module.wireIds.foldl (visitWire e) s

end Insertion

end ClockNet.Buffering

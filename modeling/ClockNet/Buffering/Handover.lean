import ClockNet.Buffering.Insertion

/-! What follows the insertion into a module. Outputs now driven by an inserted cell are
published; the old drivers are moved onto the wires that feed the inserted cells; the wires
in the place of input ports take over their names and roles; and cells off the clock path
are connected to the new input wires again, so that only clock loads are buffered. -/

namespace ClockNet.Buffering.Insertion

/-- An output port, and no input, that the selection does not leave out. -/
def retags (o : Options) (m : Module) (w : Wire) : Bool :=
  !w.isInput && w.isOutput && o.selection.all fun s => s.selectsWire m w

/-- Publishes the bits of an output port that an inserted cell drives. -/
def publishOutput (e : Scene) (s : Insertion) (id : WireId) : Insertion :=
  let w := s.module.wire id
  if retags e.options s.module w then
    w.foldPlaces (fun t i =>
      if (s.placedOn? (e.aliases.root (.wire id i))).isSome then t.publishBuffered w i else t) s
  else s

def publishOutputs (e : Scene) (s : Insertion) : Insertion :=
  s.module.wireIds.foldl (publishOutput e) s

/-- The bit that a driver of `b` is moved onto: the wire that feeds the cell placed on its
net, unless the driver is that cell. -/
def movedBit (e : Scene) (s : Insertion) (id : CellId) (b : Bit) : Bit :=
  match s.placedOn? (e.aliases.root b) with
  | some p => if p.cell = id then b else .wire p.feed 0
  | none => b

def moveOutputs (e : Scene) (s : Insertion) (id : CellId) (c : Cell) : Cell :=
  { c with ports := c.ports.mapValues fun port signal =>
      if e.signatures.isOutput c port then signal.map (movedBit e s id) else signal }

def moveDrivers (e : Scene) (s : Insertion) : Insertion :=
  { s with module := { s.module with cells := s.module.cells.mapIdx (moveOutputs e s) } }

/-- A wire that is no longer a port. -/
def stripPort (w : Wire) : Wire :=
  { w with attributes := .empty, position := 0, isInput := false, isOutput := false }

/-- Hands the name of an input port to the wire in its place. -/
def renamePort (m : Module) (pair : WireId × WireId) : Module :=
  (m.swapNames pair.2 pair.1).modifyWire pair.1 stripPort

def renamePorts (s : Insertion) : Insertion :=
  { s with
    module := (s.replaced.foldl renamePort s.module).renumberPorts
    stats := { s.stats with renamedPorts := s.stats.renamedPorts + s.replaced.length } }

/-- A chunk that is all of a replaced port is all of the wire in its place. -/
def restoredChunk (m : Module) (replaced : List (WireId × WireId)) (chunk : Signal) : Signal :=
  match replaced.find? fun pair => m.wireSignal pair.1 == chunk with
  | some pair => m.wireSignal pair.2
  | none => chunk

/-- A signal with the new wires in the place of replaced ports. -/
def restoredSignal (m : Module) (replaced : List (WireId × WireId)) (s : Signal) : Signal :=
  s.chunks.flatMap (restoredChunk m replaced)

/-- A cell whose inputs go back to the input ports: its type lies on no clock path and is
not the buffer type. -/
def restores (o : Options) (tags : Tags) (c : Cell) : Bool :=
  !tags.clocked.contains c.type && (o.buffer.map (·.type)) != some c.type

def restoredPort (e : Scene) (s : Insertion) (c : Cell) (port : String) (signal : Signal) :
    Signal :=
  if restores e.options s.tags c && !e.signatures.isOutput c port then
    restoredSignal s.module s.replaced signal
  else signal

def restoreCell (e : Scene) (s : Insertion) (c : Cell) : Cell :=
  { c with ports := c.ports.mapValues (restoredPort e s c) }

/-- The ports of a cell that restoring changes. -/
def changedPorts (e : Scene) (s : Insertion) (c : Cell) : List String :=
  (c.ports.entries.filter fun p => restoredPort e s c p.1 p.2 != p.2).map (·.1)

/-- Connects cells off the clock path to the input ports again. While no cell type lies on a
clock path, nothing is done. -/
def restoreLoads (e : Scene) (s : Insertion) : Insertion :=
  if s.tags.clocked.isEmpty then s
  else
    let changes := s.module.cells.flatMap fun c =>
      (changedPorts e s c).map (Event.restoring c.name)
    { s with
      module := { s.module with cells := s.module.cells.map (restoreCell e s) }
      events := s.events ++ changes
      stats := { s.stats with restoredPorts := s.stats.restoredPorts + changes.length } }

end ClockNet.Buffering.Insertion

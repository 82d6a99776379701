import ClockNet.Buffering.Handover
import ClockNet.Buffering.Order

/-! A run inserts clock buffers into all modules of a design, instantiated modules first.
Black boxes only contribute the tags of their ports. -/

namespace ClockNet.Buffering

/-- The state of a run between modules. -/
structure Progress where
  design : Design
  tags : Tags := {}
  stats : Stats := {}
  events : List Event := []
deriving DecidableEq, Inhabited

/-- Inputs behind a pad get a buffer as well, unless the pad is a module of the design with
a port that drives a clock. -/
def buffersInputs (o : Options) (d : Design) : Bool :=
  match o.pad.bind fun pad => d.find? pad.type with
  | some m => !m.ports.any fun id => (m.wire id).attributes.flag Attribute.driver
  | none => true

/-- The tags of the configured cell types. The output of a pad counts as buffered if no
buffer follows it. -/
def initialTags (o : Options) (d : Design) : Tags :=
  let t : Tags := {}
  let t := match o.buffer with
    | some b =>
      let t := t.addBufferType b
      match o.generatedClock with
      | some g => t.addBufferType { b with type := g.bufferType }
      | none => t
    | none => t
  match o.pad with
  | some pad => if o.buffer.isNone || !buffersInputs o d then t.addBufferType pad else t
  | none => t

def Scene.ofModule (o : Options) (buffersInputs : Bool) (signatures : Signatures)
    (survey : Survey) (aliases : AliasMap) (m : Module) : Scene :=
  let driven := drivenBits o signatures m
  { options := o, signatures, buffersInputs, aliases
    clocks := survey.settled
    driven
    generated := generatedBits o signatures m driven }

/-- The state of a run before anything is inserted into a module: the cell types on clock
paths are noted and the generated clocks reported. -/
def Insertion.start (p : Progress) (survey : Survey) (e : Scene) (m : Module) : Insertion :=
  { module := m
    tags := survey.clocked.foldl Tags.addClocked p.tags
    stats := { p.stats with generatedClocks := p.stats.generatedClocks + e.generated.length }
    events := p.events ++
      [.classified e.clocks.sinks.length e.clocks.buffered.length] ++
      generatedEvents m e.generated }

/-- Inserts buffers into a module and hands over the drivers, names and loads. -/
def Insertion.complete (e : Scene) (s : Insertion) : Insertion :=
  ((((s.visitWires e).publishOutputs e).moveDrivers e).renamePorts).restoreLoads e

def bufferModule (o : Options) (buffersInputs : Bool) (p : Progress) (m : Module) : Progress :=
  let aliases := AliasMap.ofConnections m.connections
  let survey := Survey.ofModule p.tags aliases m
  let e := Scene.ofModule o buffersInputs (.ofDesign p.design) survey aliases m
  let s := (Insertion.start p survey e m).complete e
  { design := p.design.replace s.module, tags := s.tags, stats := s.stats, events := s.events }

def visitModule (o : Options) (buffersInputs : Bool) (p : Progress) (name : String) :
    Progress :=
  match p.design.find? name with
  | none => p
  | some m =>
    if m.isBlackbox then { p with tags := p.tags.addBlackbox m }
    else bufferModule o buffersInputs p m

/-- Inserts clock buffers into a design. Nothing is done if neither a buffer nor a pad is
given. -/
def run (o : Options) (d : Design) : Except OptionError Progress :=
  if o.buffer.isNone && o.pad.isNone then .error .noCellType
  else
    let order := moduleOrder d o.selection
    let p := order.foldl (visitModule o (buffersInputs o d))
      { design := d, tags := initialTags o d, events := [.order order] }
    .ok { p with events := p.events ++ [.finished p.stats] }

end ClockNet.Buffering

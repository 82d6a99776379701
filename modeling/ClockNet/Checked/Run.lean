import ClockNet.Checked.Insertion
import ClockNet.Checked.Writing
import ClockNet.Proofs.Persistence

/-! # Runs, with assertions

The rest of a run again, on operations that check what they ask for and that keep the maps of names:
drivers are moved and loads restored cell by cell, names are exchanged by id, and alias maps,
signatures and black boxes are looked up in the design at hand. A run from a well-formed design with
its ports in order keeps it so at every visit, which is all that the checks ask for, and a changed
module takes its place in the design with its maps (`run_agrees`). -/

namespace ClockNet.Buffering.Checked

open ClockNet.Checked (Agrees lift bind_ok forM_ok mapM_ok foldlM_agrees)

variable {ε : Type}

/-! ## The handover -/

section
variable {s : Insertion} {t : Buffering.Insertion}

/-- Publishes the bits of an output port, whose wire is looked up. -/
def publishOutput (e : Scene) (s : Insertion) (id : WireId) : ClockNet.Checked ε Insertion := do
  let _ ← s.module.lookupWire id
  .ok (s.note (·.publishOutput e id))

def publishOutputs (e : Scene) (s : Insertion) : ClockNet.Checked ε Insertion :=
  s.module.wireIds.foldlM (publishOutput e) s

theorem module_publishOutput (e : Scene) (t : Buffering.Insertion) (id : WireId) :
    (t.publishOutput e id).module = t.module := by
  obtain ⟨tags, ht⟩ := Insertion.foldl_publish (e := e) (m := t.module)
    (Insertion.outputActions_publish e t id) t
  rw [Insertion.publishOutput_eq e rfl rfl, ht]

theorem publishOutputs_ok (h : s.Registers t) (e : Scene) :
    ∃ s', publishOutputs (ε := ε) e s = .ok s' ∧ s'.Registers (t.publishOutputs e) := by
  unfold publishOutputs Buffering.Insertion.publishOutputs
  rw [h.module_eq]
  -- no wire is added while outputs are published
  have hstep : ∀ s' t', Insertion.Registers s' t' ∧ t'.module = t.module →
      ∀ id ∈ t.module.wireIds, ∃ s'', publishOutput (ε := ε) e s' id = .ok s'' ∧
        s''.Registers (t'.publishOutput e id) ∧ (t'.publishOutput e id).module = t.module := by
    rintro s' t' ⟨hs', hmodule⟩ id hid
    have hnoted := hs'.note (f := (·.publishOutput e id)) (module_publishOutput e · id)
    refine ⟨_, ?_, hnoted, (module_publishOutput e t' id).trans hmodule⟩
    rw [publishOutput, hs'.module_eq, hmodule, Module.lookupWire_ok (List.mem_range.mp hid)]
    rfl
  obtain ⟨s', he, hs', -⟩ := foldlM_agrees ⟨h, rfl⟩ hstep
  exact ⟨s', he, hs'⟩

def moveDrivers (e : Scene) (s : Insertion) : ClockNet.Checked ε Insertion := do
  let r ← s.registry.rewriteCells fun id c => .ok (s.moveOutputs e id c)
  .ok (s.withRegistry r)

theorem moveDrivers_ok (h : s.Registers t) (e : Scene) :
    ∃ s', moveDrivers (ε := ε) e s = .ok s' ∧ s'.Registers (t.moveDrivers e) := by
  obtain ⟨r, he, hr⟩ := h.registry.rewriteCells (ε := ε)
    (g := fun id c => .ok (t.moveOutputs e id c)) (fun _ _ => rfl) fun _ _ => rfl
  refine ⟨s.withRegistry r, ?_, h.withRegistry hr⟩
  rw [moveDrivers, h.insertion_eq, he]
  rfl

/-- Exchanges the names of a port and its copy, and makes the port an internal wire. -/
def renamePort (r : Registry) (pair : WireId × WireId) : ClockNet.Checked ε Registry := do
  let r ← r.exchangeNames pair.2 pair.1
  r.updateWire pair.1 Buffering.Insertion.stripPort

def renamePorts (s : Insertion) : ClockNet.Checked ε Insertion := do
  let r ← s.replaced.foldlM renamePort s.registry
  let r ← r.renumber
  .ok ((s.withRegistry r).note fun t => { t with
    stats := { t.stats with renamedPorts := t.stats.renamedPorts + t.replaced.length } })

theorem renamePort_ok {r : Registry} {m : Module} (h : r.Registers m) {pair : WireId × WireId}
    (h₁ : pair.1 < m.wires.length) (h₂ : pair.2 < m.wires.length) :
    ∃ r', renamePort (ε := ε) r pair = .ok r' ∧
      r'.Registers (Buffering.Insertion.renamePort m pair) := by
  obtain ⟨r₁, he₁, hr₁⟩ := h.exchangeNames (ε := ε) h₂ h₁
  obtain ⟨r₂, he₂, hr₂⟩ := hr₁.updateWire (ε := ε)
    (show pair.1 < _ by simpa [Module.swapNames] using h₁) (f := Buffering.Insertion.stripPort) rfl
  exact ⟨r₂, by rw [renamePort, he₁, bind_ok, he₂], hr₂⟩

theorem renamePorts_ok (h : s.Registers t) (hreplaced : ∀ pair ∈ t.replaced,
    pair.1 < t.module.wires.length ∧ pair.2 < t.module.wires.length) :
    ∃ s', renamePorts (ε := ε) s = .ok s' ∧ s'.Registers t.renamePorts := by
  have hstep : ∀ r m, Registry.Registers r m ∧ m.wires.length = t.module.wires.length →
      ∀ pair ∈ t.replaced, ∃ r', renamePort (ε := ε) r pair = .ok r' ∧
        r'.Registers (Buffering.Insertion.renamePort m pair) ∧
        (Buffering.Insertion.renamePort m pair).wires.length = t.module.wires.length := by
    rintro r m ⟨hr, hlength⟩ pair hpair
    obtain ⟨h₁, h₂⟩ := hreplaced pair hpair
    rw [← hlength] at h₁ h₂
    obtain ⟨r', he, hr'⟩ := renamePort_ok (ε := ε) hr h₁ h₂
    exact ⟨r', he, hr', (Insertion.length_renamePort pair).trans hlength⟩
  obtain ⟨r₁, he₁, hr₁, -⟩ := foldlM_agrees ⟨h.registry, rfl⟩ hstep
  obtain ⟨r₂, he₂, hr₂⟩ := hr₁.renumber (ε := ε)
  refine ⟨_, by rw [renamePorts, h.insertion_eq, he₁, bind_ok, he₂]; rfl, ?_⟩
  exact (h.withRegistry hr₂).note fun _ => rfl

/-- Splits the signals that are compared with replaced ports into chunks. -/
def splitInputs (e : Scene) (s : Buffering.Insertion) (c : Cell) : ClockNet.Checked ε Unit :=
  c.ports.entries.forM fun p =>
    if Buffering.Insertion.restores e.options s.tags c && !e.signatures.isOutput c p.1 then do
      let _ ← p.2.split
      .ok ()
    else .ok ()

theorem splitInputs_ok (e : Scene) (s : Buffering.Insertion) (c : Cell) :
    splitInputs (ε := ε) e s c = .ok () := by
  refine forM_ok fun p _ => ?_
  split
  · rw [Signal.split_eq]
    rfl
  · rfl

/-- Restores the loads, cell by cell, once all bits of the replaced ports and of their copies are
looked up. -/
def restoreLoads (e : Scene) (s : Insertion) : ClockNet.Checked ε Insertion :=
  if s.tags.clocked.isEmpty then .ok s
  else do
    s.replaced.forM fun pair => do
      let _ ← s.module.lookupSignal pair.1
      let _ ← s.module.lookupSignal pair.2
      .ok ()
    let r ← s.registry.rewriteCells fun _ c => do
      splitInputs e s.toInsertion c
      .ok (s.restoreCell e c)
    let changes := s.module.cells.flatMap fun c =>
      (s.changedPorts e c).map (Event.restoring c.name)
    .ok ((s.withRegistry r).note fun t => { t with
      events := t.events ++ changes
      stats := { t.stats with restoredPorts := t.stats.restoredPorts + changes.length } })

theorem restoreLoads_ok (h : s.Registers t) (e : Scene) (hreplaced : ∀ pair ∈ t.replaced,
    pair.1 < t.module.wires.length ∧ pair.2 < t.module.wires.length) :
    ∃ s', restoreLoads (ε := ε) e s = .ok s' ∧ s'.Registers (t.restoreLoads e) := by
  unfold restoreLoads Buffering.Insertion.restoreLoads
  rw [h.insertion_eq]
  split
  · exact ⟨s, rfl, h⟩
  · have hsignals : (t.replaced.forM fun pair => do
        let _ ← t.module.lookupSignal pair.1
        let _ ← t.module.lookupSignal pair.2
        .ok () : ClockNet.Checked ε Unit) = .ok () := by
      refine forM_ok fun pair hpair => ?_
      rw [Module.lookupSignal_ok (hreplaced pair hpair).1, bind_ok,
        Module.lookupSignal_ok (hreplaced pair hpair).2]
      rfl
    obtain ⟨r, he, hr⟩ := h.registry.rewriteCells (ε := ε) (f := fun _ => t.restoreCell e)
      (g := fun _ c => do splitInputs e t c; .ok (t.restoreCell e c))
      (fun id _ => by rw [splitInputs_ok]; rfl) fun _ _ => rfl
    have hcells : t.module.cells.mapIdx (fun _ => t.restoreCell e) =
        t.module.cells.map (t.restoreCell e) := List.ext_getElem (by simp) (by simp)
    rw [hcells] at hr
    refine ⟨_, by rw [hsignals, bind_ok, he]; rfl, ?_⟩
    exact (h.withRegistry hr).note fun _ => rfl

/-! ## Modules -/

def complete (e : Scene) (s : Insertion) : ClockNet.Checked ε Insertion := do
  let s ← visitWires e s
  let s ← publishOutputs e s
  let s ← moveDrivers e s
  let s ← renamePorts s
  restoreLoads e s

theorem complete_ok (h : s.Registers t) (e : Scene) (ht : t.Fresh) :
    ∃ s', complete (ε := ε) e s = .ok s' ∧ s'.Registers (t.complete e) := by
  have hreplaced : ∀ pair ∈ (t.inserted e).replaced,
      pair.1 < (t.inserted e).module.wires.length ∧
        pair.2 < (t.inserted e).module.wires.length := fun pair hpair =>
    ⟨(Insertion.exchange_inserted ht).fst_lt pair hpair,
      (Insertion.exchange_inserted ht).snd_lt pair hpair⟩
  have hlength : ((t.inserted e).moveDrivers e).renamePorts.module.wires.length =
      (t.inserted e).module.wires.length := by
    rw [Insertion.renamePorts_moveDrivers]
    exact (Module.length_renumberPorts _).trans (Insertion.length_renames _)
  obtain ⟨s₁, h₁, hs₁⟩ := visitWires_ok (ε := ε) h e
  obtain ⟨s₂, h₂, hs₂⟩ := publishOutputs_ok (ε := ε) hs₁ e
  obtain ⟨s₃, h₃, hs₃⟩ := moveDrivers_ok (ε := ε) hs₂ e
  obtain ⟨s₄, h₄, hs₄⟩ := renamePorts_ok (ε := ε) hs₃ hreplaced
  obtain ⟨s₅, h₅, hs₅⟩ := restoreLoads_ok (ε := ε) hs₄ e
    (by rw [show ((t.visitWires e).publishOutputs e) = t.inserted e from rfl, hlength]
        exact hreplaced)
  exact ⟨s₅, by rw [complete, h₁, bind_ok, h₂, bind_ok, h₃, bind_ok, h₄, bind_ok, h₅], hs₅⟩

end

theorem hasBit_generated {o : Options} {signatures : Signatures} {m : Module} {driven : List Bit}
    (hm : m.WellFormed) {b : Bit} (hb : b ∈ generatedBits o signatures m driven) :
    m.HasBit b := by
  unfold generatedBits at hb
  split at hb
  · rename_i g _
    obtain ⟨c, hc, hb⟩ := List.mem_flatMap.mp (List.mem_of_mem_filter (List.mem_eraseDups.mp hb))
    cases hport : c.ports.get? g.clockPort with
    | none =>
      rw [hport] at hb
      cases hb
    | some signal =>
      rw [hport] at hb
      exact hm.cell_bits c (List.mem_of_mem_filter hc) _ (OrderedTable.mem_of_get? hport) b hb
  · cases hb

/-- The state of a run between modules, with the maps of names. -/
structure Progress where
  registries : Registries
  tags : Tags := {}
  stats : Stats := {}
  events : List Event := []
deriving DecidableEq

/-- The state is this one, and the design is registered by its names. -/
structure Progress.Registers (p : Progress) (q : Buffering.Progress) : Prop where
  registries : p.registries.Registers q.design
  tags_eq : p.tags = q.tags
  stats_eq : p.stats = q.stats
  events_eq : p.events = q.events

/-- Deals with a module that has contents; the reported clocks are spelled. -/
def bufferModule (o : Options) (buffersInputs : Bool) (signatures : Signatures) (p : Progress)
    (r : Registry) : ClockNet.Checked ε Progress := do
  let m := r.module
  let aliases ← AliasMap.build m
  let survey := Survey.ofModule p.tags aliases m
  let e := Scene.ofModule o buffersInputs signatures survey aliases m
  let _ ← e.generated.mapM fun b => Rtlil.Checked.signalGroups m [b]
  let s ← complete e
    { toInsertion := Insertion.start ⟨p.registries.design, p.tags, p.stats, p.events⟩ survey e m
      wireNames := r.wireNames, cellNames := r.cellNames }
  .ok { registries := p.registries.put m.name s.registry
        tags := s.tags, stats := s.stats, events := s.events }

/-- Deals with the module of a name, once the directions of all ports are known. -/
def visitModule (o : Options) (buffersInputs : Bool) (p : Progress) (name : String) :
    ClockNet.Checked ε Progress := do
  let signatures ← Signatures.build p.registries.design
  match p.registries.find? name with
  | none => .ok p
  | some r =>
    if r.module.isBlackbox then do
      let ports ← r.module.lookupWires r.module.ports
      .ok { p with tags := ports.foldl (Tags.addPort r.module) p.tags }
    else bufferModule o buffersInputs signatures p r

section
variable {p : Progress} {q : Buffering.Progress} {r : Registry}

theorem bufferModule_ok (h : p.Registers q) (o : Options) (buffersInputs : Bool)
    (hr : r.Registers r.module) (hm : r.module.WellFormed)
    (hfind : q.design.find? r.module.name = some r.module) :
    ∃ p', bufferModule (ε := ε) o buffersInputs (.ofDesign q.design) p r = .ok p' ∧
      p'.Registers (Buffering.bufferModule o buffersInputs q r.module) := by
  obtain ⟨hregistries, htags, hstats, hevents⟩ := h
  have hq : (⟨p.registries.design, p.tags, p.stats, p.events⟩ : Buffering.Progress) = q := by
    rw [hregistries.design_eq, htags, hstats, hevents]
  unfold bufferModule Buffering.bufferModule
  dsimp only
  rw [AliasMap.build_ok hm.connection_widths, bind_ok, hq, htags]
  generalize Survey.ofModule q.tags _ r.module = survey
  generalize hscene : Scene.ofModule o buffersInputs _ survey _ r.module = e
  have hgenerated : ∀ b ∈ e.generated, Rtlil.Checked.signalGroups (ε := ε) r.module [b] =
      .ok (Rtlil.signalGroups r.module [b]) := by
    intro b hb
    rw [← hscene] at hb
    exact Rtlil.Checked.signalGroups_ok fun b' hb' =>
      List.mem_singleton.mp hb' ▸ hasBit_generated hm hb
  have hstart : Insertion.Registers { toInsertion := Insertion.start q survey e r.module
                                      wireNames := r.wireNames, cellNames := r.cellNames }
      (Insertion.start q survey e r.module) := ⟨rfl, hr.consistent⟩
  have hfresh : (Insertion.start q survey e r.module).Fresh := ⟨hm.namesUnique, rfl, rfl⟩
  obtain ⟨s, he, hs⟩ := complete_ok (ε := ε) hstart e hfresh
  rw [mapM_ok hgenerated, bind_ok, he]
  refine ⟨_, rfl, ?_, congrArg (·.tags) hs.insertion_eq, congrArg (·.stats) hs.insertion_eq,
    congrArg (·.events) hs.insertion_eq⟩
  -- the module has kept the name that it stands under
  have hname : ((Insertion.start q survey e r.module).complete e).module.name = r.module.name :=
    Insertion.complete_name hfresh
  rw [← hname]
  refine hregistries.replace hs.registry ?_
  rw [hname, hfind]
  rfl

theorem visitModule_ok (h : p.Registers q) (o : Options) (buffersInputs : Bool)
    (hd : q.design.WellFormed) (hp : q.design.PortsNumbered) (name : String) :
    ∃ p', visitModule (ε := ε) o buffersInputs p name = .ok p' ∧
      p'.Registers (Buffering.visitModule o buffersInputs q name) := by
  have hfind := h.registries.find?_eq name
  unfold visitModule Buffering.visitModule
  rw [h.registries.design_eq, Signatures.build_ok hp, bind_ok, hfind]
  cases hr : p.registries.find? name with
  | none => exact ⟨p, rfl, h⟩
  | some r =>
    rw [hr] at hfind
    have hmem := Design.mem_of_find? hfind
    dsimp only [Option.map_some]
    split
    · rw [(hp r.module hmem).lookupWires_ports]
      refine ⟨_, rfl, h.registries, ?_, h.stats_eq, h.events_eq⟩
      rw [h.tags_eq]
      rfl
    · refine bufferModule_ok h o buffersInputs (h.registries.registry hr) (hd.modules _ hmem) ?_
      rw [Design.name_of_find? hfind]
      exact hfind

end

/-! ## Runs -/

/-- Looks up the ports of the pad's module to ask whether one of them drives a clock. -/
def buffersInputs (o : Options) (d : Registries) : ClockNet.Checked ε Bool :=
  match o.pad.bind fun pad => d.find? pad.type with
  | some r => do
    let ports ← r.module.lookupWires r.module.ports
    .ok (!ports.any (·.attributes.flag Attribute.driver))
  | none => .ok true

def run (o : Options) (d : Registries) : ClockNet.Checked OptionError Progress :=
  if o.buffer.isNone && o.pad.isNone then lift (.error .noCellType)
  else do
    let buffersInputs ← buffersInputs o d
    let order := moduleOrder d.design o.selection
    let p ← order.foldlM (visitModule o buffersInputs)
      { registries := d, tags := initialTags o d.design, events := [.order order] }
    .ok { p with events := p.events ++ [.finished p.stats] }

section
variable {d : Registries} {p : Design}

theorem buffersInputs_ok (h : d.Registers p) (o : Options) (hp : p.PortsNumbered) :
    buffersInputs (ε := ε) o d = .ok (Buffering.buffersInputs o p) := by
  have hfind : (o.pad.bind fun pad => p.find? pad.type) =
      (o.pad.bind fun pad => d.find? pad.type).map (·.module) := by
    cases o.pad with
    | none => rfl
    | some pad => exact h.find?_eq pad.type
  unfold buffersInputs Buffering.buffersInputs
  rw [hfind]
  cases hr : o.pad.bind fun pad => d.find? pad.type with
  | none => rfl
  | some r =>
    rw [hr] at hfind
    obtain ⟨pad, -, hpad⟩ := Option.bind_eq_some_iff.mp hfind
    dsimp only [Option.map_some]
    rw [(hp _ (Design.mem_of_find? hpad)).lookupWires_ports, bind_ok, List.any_map]
    rfl

/-- A run from a well-formed design with its ports in order never fails an assertion, and what it
leaves is registered by its names. -/
theorem run_agrees (h : d.Registers p) (o : Options) (hd : p.WellFormed) (hp : p.PortsNumbered) :
    Agrees Progress.Registers (run o d) (Buffering.run o p) := by
  unfold run Buffering.run
  split
  · exact .refusal _
  · rw [buffersInputs_ok h o hp, bind_ok, h.design_eq]
    -- whatever has been visited, the design at hand is well formed
    have hstep : ∀ c q, Progress.Registers c q ∧ (∃ names, q = progressAfter o p names) →
        ∀ name ∈ moduleOrder p o.selection, ∃ c',
          visitModule (ε := OptionError) o (Buffering.buffersInputs o p) c name = .ok c' ∧
          c'.Registers (Buffering.visitModule o (Buffering.buffersInputs o p) q name) ∧
          ∃ names, Buffering.visitModule o (Buffering.buffersInputs o p) q name =
            progressAfter o p names := by
      rintro c q ⟨hc, names, rfl⟩ name -
      obtain ⟨hd', hp'⟩ := wellFormed_progressAfter (o := o) hd hp names
      obtain ⟨c', he, hc'⟩ := visitModule_ok (ε := OptionError) hc o _ hd' hp' name
      exact ⟨c', he, hc', names ++ [name], (progressAfter_append names name).symm⟩
    have hstart : Progress.Registers { registries := d, tags := initialTags o p
                                       events := [.order (moduleOrder p o.selection)] }
        (startOf o p) := ⟨h, rfl, rfl, rfl⟩
    obtain ⟨c, he, hc, -⟩ := foldlM_agrees ⟨hstart, [], rfl⟩ hstep
    dsimp only
    rw [he]
    refine .ok ⟨hc.registries, hc.tags_eq, hc.stats_eq, ?_⟩
    rw [hc.events_eq, hc.stats_eq]
    rfl

end

end ClockNet.Buffering.Checked

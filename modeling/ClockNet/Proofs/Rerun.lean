import ClockNet.Proofs.Rebuffering
import ClockNet.Proofs.Retold

/-! # A second run leaves a design as it is

Along the order of the second run, each module with contents finds tags that say of its cells
what those of the first run said, and perhaps that more outputs are buffered
(`retold_of_revisited`). So each is revisited (`revisited_of_rerunnable`), nothing is done in it,
and the run ends with the design that it was given (`progressAfter_endOf`). -/

namespace ClockNet

theorem Design.replace_self {d : Design} (hd : (d.modules.map (·.name)).Nodup) {m : Module}
    (hm : d.find? m.name = some m) : d.replace m = d := by
  have hmap : d.modules.map (fun old => if old.name = m.name then m else old) =
      d.modules.map id := by
    refine List.map_congr_left ?_
    intro old hold
    split
    · rename_i hname
      have hfind := Design.find?_name hd hold
      rw [hname, hm] at hfind
      exact Option.some.inj hfind
    · rfl
  unfold Design.replace
  rw [hmap, List.map_id]

namespace Buffering

open Insertion

section
variable {o : Options} {d : Design} {m : Module}

/-! ## Second visits -/

/-- The tags of a configured type say no more than that some of its outputs are buffered. -/
theorem plain_of_primitive (h : Rerunnable o d) {spec : BufferSpec} (hspec : spec ∈ o.placeable)
    (name : String) : Plain (progressBefore o (endOf o d) name).tags spec.type := by
  have hd := h.well.namesUnique
  have hd' := namesUnique_endOf (o := o) hd h.ports
  refine ⟨?_, ?_⟩
  · intro port j ht
    rw [mem_sinks_progressBefore hd', exists_find?_endOf hd] at ht
    obtain ⟨-, t, hf, htag⟩ := ht
    have hb := h.box hspec t hf
    rw [resultOf_blackbox hb] at htag
    unfold TagsSink at htag
    rw [if_pos hb] at htag
    obtain ⟨id, hid, hflag, -⟩ := htag
    rw [((h.primitive spec hspec).unmarked t hf id hid).1] at hflag
    cases hflag
  · intro port j
    cases hi : (progressBefore o (endOf o d) name).tags.inverterInput? ⟨spec.type, port, j⟩ with
    | none => rfl
    | some input =>
      obtain ⟨t, ht, hname, hb, id, hid, -, v, hv, -⟩ := inverterInput?_progressBefore hd' name hi
      have hf := Design.find?_name hd'.names ht
      rw [hname, find?_endOf hd] at hf
      obtain ⟨t₀, hf₀, rfl⟩ := Option.map_eq_some_iff.mp hf
      rw [resultOf_blackbox (h.box hspec t₀ hf₀)] at hid hv
      rw [((h.primitive spec hspec).unmarked t₀ hf₀ id hid).2] at hv
      cases hv

theorem surveyed_sceneOf (o : Options) (d : Design) (m : Module) :
    Surveyed (sceneOf o d m) m (progressBefore o d m.name).tags :=
  ⟨rfl, Survey.settled_survey _ _ m, rfl⟩

/-- A module is revisited if those before it are. -/
theorem revisited_step (h : Rerunnable o d) (hm : m ∈ d.modules) (hb : m.isBlackbox = false)
    (ho : m.name ∈ moduleOrder d o.selection)
    (hrev : ∀ t ∈ d.modules, t.isBlackbox = false →
      t.name ∈ visitedBefore o (endOf o d) m.name → Revisited o d t) : Revisited o d m := by
  have hd := h.well.namesUnique
  have hd' := namesUnique_endOf (o := o) hd h.ports
  have hs : (entryIn o d (progressBefore o d m.name) m).Fresh := fresh_entryOf hd hm _
  have hsignatures : (sceneOf o d m).signatures = .ofDesign d := signatures_sceneOf hd h.ports m
  have hname : (exitOf o d m).module.name = m.name := complete_name (e := sceneOf o d m) hs
  refine
    { fresh := hs
      well := h.well.modules m hm
      single := ?single
      outputs := drivesOutputs_sceneOf hd (fun spec hspec => (h.primitive spec hspec).sound) m
      given := h.given
      before := surveyed_sceneOf o d m
      clocked := ?clocked
      after := ?after
      options := rfl
      signatures := ?signatures
      pads := buffersInputs_endOf h
      directed := ?directed
      retold := ?retold
      plain := fun spec hspec => plain_of_primitive h hspec m.name
      heads := ?heads }
  case single =>
    rw [hsignatures]
    exact h.single m hm hb
  case clocked =>
    intro type htype
    exact ((entry_tags o d (progressBefore o d m.name) m).2.2.2 type).mpr (.inr htype)
  case after =>
    have hafter := surveyed_sceneOf o (endOf o d) (exitOf o d m).module
    rw [hname] at hafter
    exact hafter
  case signatures =>
    rw [hsignatures, signatures_sceneOf hd' (portsNumbered_endOf hd h.ports),
      signatures_endOf hd h.ports]
  case directed =>
    intro c _
    rw [hsignatures]
    exact directed_of_visit h m.name c
  case retold =>
    intro c hc
    rw [hsignatures]
    exact retold_of_revisited h hm hb ho hc hrev
  case heads =>
    intro id i spec hdrive hhead
    refine (mem_buffered_progressBefore hd').mpr (.inl ?_)
    rw [initialTags_endOf h]
    exact head_tagged hdrive hhead

theorem revisited_of_rerunnable (h : Rerunnable o d) (hm : m ∈ d.modules)
    (hb : m.isBlackbox = false) (ho : m.name ∈ moduleOrder (endOf o d) o.selection) :
    Revisited o d m := by
  have hd := h.well.namesUnique
  obtain ⟨inside, hapart⟩ := h.setApart
  have hall : ∀ t ∈ d.modules, t.isBlackbox = false →
      t.name ∈ moduleOrder (endOf o d) o.selection → Revisited o d t := by
    refine order_induction (o := o) (d := endOf o d) (P := fun names => ∀ t ∈ d.modules,
      t.isBlackbox = false → t.name ∈ names → Revisited o d t) ?_ ?_ (List.prefix_refl _)
    · intro t _ _ hmem
      cases hmem
    · intro x _ hx ih t ht hbt hmem
      rcases List.mem_append.mp hmem with hbefore | hlast
      · exact ih t ht hbt hbefore
      · have hname : t.name = x.name := List.mem_singleton.mp hlast
        have hout := hapart.outside ht hbt
        refine revisited_step h ht hbt ?_ ?_
        · rw [← mem_order_endOf hd h.ports hapart hout, hname]
          exact hx
        · rw [hname]
          exact ih
  exact hall m hm hb ho

/-! ## The second run -/

theorem exitOf_endOf (h : Rerunnable o d) (hm : m ∈ d.modules) (hb : m.isBlackbox = false)
    (ho : m.name ∈ moduleOrder (endOf o d) o.selection) :
    (exitOf o (endOf o d) (resultOf o d m)).module = resultOf o d m ∧
    (exitOf o (endOf o d) (resultOf o d m)).stats =
      (entryIn o (endOf o d) (progressBefore o (endOf o d) (resultOf o d m).name)
        (resultOf o d m)).stats := by
  have hd := h.well.namesUnique
  obtain ⟨inside, hapart⟩ := h.setApart
  have hfirst := (mem_order_endOf hd h.ports hapart (hapart.outside hm hb)).mp ho
  have hmem : resultOf o d m ∈ (endOf o d).modules := by
    rw [modules_endOf hd]
    exact List.mem_map_of_mem hm
  have hquiet := (revisited_of_rerunnable h hm hb ho).quiet_revisit
  have hleft : ((entryIn o d (progressBefore o d m.name) m).complete (sceneOf o d m)).module =
      resultOf o d m := (resultOf_visited hb hfirst).symm
  rw [hleft, ← resultOf_visited hb hfirst] at hquiet
  have hs : (entryIn o (endOf o d) (progressBefore o (endOf o d) (resultOf o d m).name)
      (resultOf o d m)).Fresh := fresh_entryOf (namesUnique_endOf hd h.ports) hmem _
  exact complete_of_quiet (e := sceneOf o (endOf o d) (resultOf o d m)) hs
    (portsNumbered_endOf hd h.ports _ hmem) hquiet

/-- The numbers say that no cell has been added and no port replaced. -/
structure Stats.Unchanged (s : Stats) : Prop where
  buffers : s.buffers = 0
  pads : s.pads = 0
  renamedPorts : s.renamedPorts = 0
  restoredPorts : s.restoredPorts = 0

/-- All through the second run, the design is what it was and nothing is counted. -/
theorem progressAfter_endOf (h : Rerunnable o d) {names : List String}
    (hn : names <+: moduleOrder (endOf o d) o.selection) :
    (progressAfter o (endOf o d) names).design = endOf o d ∧
      (progressAfter o (endOf o d) names).stats.Unchanged := by
  have hd := h.well.namesUnique
  have hd' := namesUnique_endOf (o := o) hd h.ports
  refine order_induction (P := fun names =>
    (progressAfter o (endOf o d) names).design = endOf o d ∧
      (progressAfter o (endOf o d) names).stats.Unchanged) ?_ ?_ hn
  · show (startOf o (endOf o d)).design = endOf o d ∧ (startOf o (endOf o d)).stats.Unchanged
    exact ⟨rfl, rfl, rfl, rfl, rfl⟩
  · intro x hx ho ih
    obtain ⟨hdesign, hstats⟩ := ih
    rw [progressAfter_visit hd' hx]
    cases hb : x.isBlackbox with
    | true =>
      rw [if_pos rfl]
      exact ⟨hdesign, hstats⟩
    | false =>
      have hmem := Design.mem_of_find? hx
      rw [modules_endOf hd] at hmem
      obtain ⟨m, hm, rfl⟩ := List.mem_map.mp hmem
      obtain ⟨hname, hbox⟩ := resultOf_rest (o := o) hd hm
      obtain ⟨hmodule, hcounted⟩ := exitOf_endOf h hm (hbox.symm.trans hb) (hname ▸ ho)
      rw [if_neg Bool.false_ne_true, hmodule, hcounted]
      refine ⟨?_, hstats.buffers, hstats.pads, hstats.renamedPorts, hstats.restoredPorts⟩
      have hbefore : (progressBefore o (endOf o d) (resultOf o d m).name).design = endOf o d :=
        hdesign
      rw [hbefore]
      exact Design.replace_self hd'.names hx

/-- A run on the result of a run leaves it as it is. The design has names, signals and port lists
in order, no net has two drivers, clock attributes are where they belong, and the configured types
are primitive. -/
theorem rerun_unchanged (hw : d.WellFormed) (hp : d.PortsNumbered)
    (hs : ∀ m ∈ d.modules, m.isBlackbox = false → SingleDriver (.ofDesign d) m)
    (hm : d.ClocksMarked) (hc : ∀ spec ∈ o.placeable, spec.Primitive d)
    (hg : o.buffer.isSome ∨ o.pad.isSome) :
    ∃ p p', run o d = .ok p ∧ run o p.design = .ok p' ∧ p'.design = p.design ∧
      p'.stats.Unchanged := by
  have h : Rerunnable o d := ⟨hw, hp, hs, hm, hc, hg⟩
  obtain ⟨p, hrun⟩ := run_total (d := d) hg
  obtain ⟨-, hdesign, -⟩ := run_ok hrun
  obtain ⟨p', hrun'⟩ := run_total (d := p.design) hg
  obtain ⟨-, hdesign', -, hstats'⟩ := run_ok hrun'
  refine ⟨p, p', hrun, hrun', ?_⟩
  have hend : p.design = endOf o d := hdesign
  rw [hend] at hdesign' hstats'
  rw [hdesign', hstats', hend]
  exact progressAfter_endOf h (List.prefix_refl _)

end

/-! ## Configured types with contents -/

/-- A type that names no module, or a black box without contents, is primitive if its ports are
as they should be. -/
theorem BufferSpec.primitive_of_leaf {d : Design} {spec : BufferSpec} (hs : spec.Sound d)
    (hleaf : ∀ t ∈ d.find? spec.type, t.isBlackbox = true ∧ t.cells = [])
    (hplain : ∀ t ∈ d.find? spec.type, ∀ id ∈ t.ports,
      (t.wire id).attributes.flag Attribute.sink = false ∧
        (t.wire id).attributes.get? Attribute.inverts = none) : spec.Primitive d := by
  refine ⟨hs, ?_, hplain⟩
  intro name hlead t ht
  cases hlead.cases_head with
  | inl heq => exact (hleaf t (heq ▸ ht)).1
  | inr hstep =>
    -- a leaf leads nowhere
    obtain ⟨type, hinst, -⟩ := hstep
    obtain ⟨x, hx, c, hc, -⟩ := hinst
    rw [(hleaf x hx).2] at hc
    cases hc

/-- The register that has been given a buffer and a pad is given no more. -/
theorem rerun_unchanged_register : ∃ p p', run bufferAndPad clockedRegister = .ok p ∧
    p.stats.buffers = 1 ∧ p.stats.pads = 1 ∧ run bufferAndPad p.design = .ok p' ∧
    p'.design = p.design ∧ p'.stats.Unchanged := by
  have hprimitive : ∀ spec ∈ bufferAndPad.placeable, spec.Primitive clockedRegister := by
    intro spec hspec
    have hleaf : ∀ spec ∈ bufferAndPad.placeable, spec.Sound clockedRegister ∧
        (∀ t ∈ clockedRegister.find? spec.type, t.isBlackbox = true ∧ t.cells = []) ∧
        ∀ t ∈ clockedRegister.find? spec.type, ∀ id ∈ t.ports,
          (t.wire id).attributes.flag Attribute.sink = false ∧
            (t.wire id).attributes.get? Attribute.inverts = none := by decide
    obtain ⟨hsound, hcells, hplain⟩ := hleaf spec hspec
    exact BufferSpec.primitive_of_leaf hsound hcells hplain
  obtain ⟨p, p', hrun, hrest⟩ := rerun_unchanged (o := bufferAndPad) (d := clockedRegister)
    (by decide) (by decide) (by decide) (by decide) hprimitive (.inl rfl)
  have hstats : ((run bufferAndPad clockedRegister).toOption.map fun p =>
      (p.stats.buffers, p.stats.pads)) = some (1, 1) := by cbv
  rw [hrun] at hstats
  obtain ⟨hbuffers, hpads⟩ := Prod.mk.inj (Option.some.inj hstats)
  exact ⟨p, p', hrun, hbuffers, hpads, hrest⟩

/-- A register on the output of a module that gives its own clock a buffer. -/
def sourcedMiddle : Module := { sourcedTop with name := "middle", attributes := SortedTable.empty }

/-- A buffer that contains such a module. -/
def bufferAround : Module :=
  { bufferPrimitive with
    attributes := marked Attribute.whitebox
    cells := [{ name := "u", type := "middle" }] }

def aroundDesign : Design :=
  ⟨[registerType, generatorType, bufferAround, clockSource, sourcedMiddle]⟩

/-- Where the buffer contains a module with contents, a second run can get to that module before
it gets to an instance in it, because the instance now contains the buffer. -/
theorem rerun_inserts_below_buffer : aroundDesign.WellFormed ∧ aroundDesign.PortsNumbered ∧
    aroundDesign.Acyclic ∧
    (∀ m ∈ aroundDesign.modules, m.isBlackbox = false →
      SingleDriver (.ofDesign aroundDesign) m) ∧
    aroundDesign.ClocksMarked ∧
    (∀ spec ∈ bufferOnly.placeable, spec.Sound aroundDesign ∧
      ∀ t ∈ aroundDesign.find? spec.type, t.isBlackbox = true ∧ ∀ id ∈ t.ports,
        (t.wire id).attributes.flag Attribute.sink = false ∧
          (t.wire id).attributes.get? Attribute.inverts = none) ∧
    ∃ p p', run bufferOnly aroundDesign = .ok p ∧ run bufferOnly p.design = .ok p' ∧
      p'.stats.buffers = 1 := by
  have ha : aroundDesign.Acyclic := Design.acyclic_of_rank
    (fun name => if name = "BUFG" then 3 else if name = "middle" then 2
      else if name = "source" then 1 else 0) (by decide)
  refine ⟨by decide, by decide, ha, by decide, by decide, by decide, ?_⟩
  obtain ⟨p, hrun⟩ := run_total (o := bufferOnly) (d := aroundDesign) (.inl rfl)
  obtain ⟨p', hrun'⟩ := run_total (o := bufferOnly) (d := p.design) (.inl rfl)
  have hstats : ((run bufferOnly aroundDesign).toOption.bind fun p =>
      (run bufferOnly p.design).toOption.map (·.stats.buffers)) = some 1 := by cbv
  rw [hrun] at hstats
  have hsecond : ((run bufferOnly p.design).toOption.map (·.stats.buffers)) = some 1 := hstats
  rw [hrun'] at hsecond
  exact ⟨p, p', hrun, hrun', Option.some.inj hsecond⟩

end Buffering

end ClockNet

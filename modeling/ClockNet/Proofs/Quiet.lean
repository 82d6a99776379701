import ClockNet.Proofs.Revisit

/-! # Nothing is done at a second visit

Where no driven net that wants a clock takes a cell, and none is at an input, a visit leaves the
module as it is and counts nothing (`complete_of_quiet`). That is so at a second visit: a wire at
which something would be done has been there at the first one, with the same driver, and has been
given its cell then (`quiet_revisit`). The sinks published are the same (`publishSink_revisit`),
and what was published as buffered is so again (`publishBuffered_revisit`). -/

namespace ClockNet.Buffering

open Insertion

/-- Nothing is done at the wires of a module but publishing. -/
def Quiet (e : Scene) (m : Module) : Prop := ∀ id i, .drive id i ∈ actions e m →
  (m.wire id).isInput = false ∧ parts e m (m.wire id) (.wire id i) = []

section
variable {e : Scene} {s : Insertion}

/-! ## Visits that do nothing -/

theorem drive_of_nil {m : Module} {w : Wire} {i : Nat} {bit net : Bit}
    (hm : s.module = m) (h : parts e m w bit = []) : s.drive e w i bit net = s := by
  obtain ⟨hbuffer, hpad⟩ := parts_eq_nil.mp h
  subst hm
  unfold drive
  simp only [hbuffer, hpad]

theorem inserted_of_quiet (hq : Quiet e s.module) : ∃ tags, s.inserted e = { s with tags } := by
  have go : ∀ (as : List Action), (∀ a ∈ as, a ∈ actions e s.module) → ∀ t : Insertion,
      (∃ tags, t = { s with tags }) →
      ∃ tags, as.foldl (Action.apply e s.module) t = { s with tags } := by
    intro as
    induction as with
    | nil => exact fun _ t ht => ht
    | cons a rest ih =>
      intro ha t ht
      refine ih (fun b hb => ha b (List.mem_cons_of_mem _ hb)) _ ?_
      obtain ⟨tags, rfl⟩ := ht
      have hmem := ha a List.mem_cons_self
      cases a with
      | drive id i => exact ⟨tags, drive_of_nil rfl (hq id i hmem).2⟩
      | publishSink id i => exact ⟨_, rfl⟩
      | publishBuffered id i => exact ⟨_, rfl⟩
      | replace id =>
        obtain ⟨hin, i, hdrive⟩ := mem_actions_replace.mp hmem
        rw [(hq id i hdrive).1] at hin
        cases hin
  obtain ⟨tags, ht⟩ := go _ (fun a ha => ha) s ⟨s.tags, rfl⟩
  rw [← visitWires_eq] at ht
  obtain ⟨tags', ht'⟩ := publishOutputs_rest e (s.visitWires e)
  refine ⟨tags', ?_⟩
  unfold inserted
  rw [ht', ht]

theorem handedCell_of_nil {u : Insertion} (hplaced : u.placed = []) (hreplaced : u.replaced = [])
    (r : Module) (k : CellId) (c : Cell) : handedCell e u r k c = c := by
  have hmoved : movedBit e u k = id := by
    funext b
    unfold movedBit placedOn?
    rw [hplaced]
    rfl
  have hsignal : ∀ port signal, handedSignal e u r k c port signal = signal := by
    intro port signal
    unfold handedSignal
    split
    · rw [hmoved, List.map_id]
    · split
      · rw [hreplaced, restoredSignal_nil]
      · rfl
  have hports : c.ports.mapValues (handedSignal e u r k c) = c.ports := by
    refine OrderedTable.ext ?_
    unfold OrderedTable.mapValues
    simp [hsignal]
  unfold handedCell
  rw [hports]

theorem changedPorts_of_nil {u : Insertion} (hreplaced : u.replaced = []) (c : Cell) :
    changedPorts e u c = [] := by
  have hport : ∀ port signal, restoredPort e u c port signal = signal := by
    intro port signal
    unfold restoredPort
    rw [hreplaced, restoredSignal_nil, ite_self]
  unfold changedPorts
  simp [hport]

/-- A visit that does nothing leaves the module and the numbers. -/
theorem complete_of_quiet (hs : s.Fresh) (hp : s.module.PortsNumbered)
    (hq : Quiet e s.module) :
    (s.complete e).module = s.module ∧ (s.complete e).stats = s.stats := by
  obtain ⟨tags, ht⟩ := inserted_of_quiet hq
  have hplaced : (s.inserted e).placed = [] := by
    rw [ht]
    exact hs.placed
  have hreplaced : (s.inserted e).replaced = [] := by
    rw [ht]
    exact hs.replaced
  have hmodule : (s.inserted e).module = s.module := by rw [ht]
  have hrenamed : (s.inserted e).renamed = s.module := by
    unfold renamed
    rw [hreplaced, hmodule]
    exact hp
  refine ⟨?_, ?_⟩
  · have hcells : s.module.cells.mapIdx (handedCell e (s.inserted e) s.module) =
        s.module.cells := by
      refine List.ext_getElem? ?_
      intro k
      rw [List.getElem?_mapIdx]
      cases s.module.cells[k]? with
      | none => rfl
      | some c => rw [Option.map_some, handedCell_of_nil hplaced hreplaced]
    rw [complete_module, hrenamed, hmodule, hcells]
  · have hstats : (((s.inserted e).moveDrivers e).renamePorts).stats = s.stats := by
      unfold renamePorts moveDrivers
      rw [ht]
      dsimp only
      rw [hs.replaced]
      rfl
    have hnone : (((s.inserted e).moveDrivers e).renamePorts).replaced = [] := hreplaced
    rw [complete_eq]
    unfold restoreLoads
    split
    · exact hstats
    · dsimp only
      rw [hstats]
      simp [changedPorts_of_nil hnone]

/-! ## The wires of a finished module -/

/-- A wire of a finished module is one of the start that has been kept, a replaced port, the copy
of one, or a wire that feeds a cell. -/
theorem complete_wire_cases (hs : s.Fresh) {id : WireId}
    (hid : id < (s.complete e).module.wires.length) :
    (id < s.module.wires.length ∧ .replace id ∉ actions e s.module ∧
      (s.complete e).module.wire id = { s.module.wire id with
        position := ((s.complete e).module.wire id).position }) ∨
    (∃ q ∈ (s.inserted e).replaced, id = q.1 ∧ ((s.complete e).module.wire id).isInput = false ∧
      ((s.complete e).module.wire id).isOutput = false ∧
      ((s.complete e).module.wire id).width = (s.module.wire q.1).width) ∨
    (∃ q ∈ (s.inserted e).replaced, id = q.2 ∧ (s.complete e).module.wire id =
      { s.module.wire q.1 with position := ((s.complete e).module.wire id).position }) ∨
    (IsFeed s.module (s.inserted e) id ∧
      ∃ name, (s.complete e).module.wire id = { name, width := 1 }) := by
  by_cases hsnd : id ∈ (s.inserted e).replaced.map Prod.snd
  · obtain ⟨q, hq, rfl⟩ := List.mem_map.mp hsnd
    exact .inr (.inr (.inl ⟨q, hq, rfl, complete_wire_copy hs hq⟩))
  · rw [length_complete_wires] at hid
    by_cases hold : id < s.module.wires.length
    · by_cases hfst : id ∈ (s.inserted e).replaced.map Prod.fst
      · obtain ⟨q, hq, rfl⟩ := List.mem_map.mp hfst
        refine .inr (.inl ⟨q, hq, rfl, ?_⟩)
        rw [complete_wire_port hs hq]
        exact ⟨rfl, rfl, rfl⟩
      · have hkept : .replace id ∉ actions e s.module := fun hr =>
          hfst ((mem_replaced_inserted hs id).mpr hr)
        exact .inl ⟨hold, hkept, complete_wire_kept hs hold hkept⟩
    · have hge := Nat.le_of_not_lt hold
      exact .inr (.inr (.inr ⟨⟨hge, hid, hsnd⟩, complete_wire_feed hs hge hid hsnd⟩))

theorem eligible_position (o : Options) (m : Module) (w : Wire) (position : Nat) :
    o.eligible m { w with position } = o.eligible m w := by
  have hselects : WirePattern.selects { w with position } = WirePattern.selects w := by
    funext p
    cases p with
    | tagged name expected => cases expected <;> rfl
    | _ => rfl
  unfold Options.eligible Selection.selectsWire
  rw [hselects]

/-! ## Selected modules -/

theorem selected_of_eligible {o : Options} {m : Module} {w : Wire} (hw : w ∈ m.wires)
    (he : o.eligible m w = true) : (o.selection.all fun x => x.selectsModule m) = true := by
  unfold Options.eligible at he
  cases hsel : o.selection with
  | none => rfl
  | some sel =>
    rw [hsel] at he
    have hany : m.wires.any (sel.selectsWire m) = true := List.any_eq_true.mpr ⟨w, hw, he⟩
    simp [Selection.selectsModule, hany]

theorem selected_complete (hs : s.Fresh) (hp : s.module.PortsNumbered) :
    (e.options.selection.all fun x => x.selectsModule (s.complete e).module) =
      e.options.selection.all fun x => x.selectsModule s.module := by
  by_cases hdrive : ∃ id i, .drive id i ∈ actions e s.module
  · -- something has been done at a wire, so it is selected, and so is the wire in its place
    obtain ⟨id, i, hdrive⟩ := hdrive
    obtain ⟨hcons, -⟩ := mem_actions_drive.mp hdrive
    have hid := Module.lt_of_place hcons.place
    have helig : e.options.eligible (s.complete e).module
        ((s.complete e).module.wire ((s.inserted e).standIn id)) = true := by
      rw [eligible_congr (complete_name hs), complete_wire_standIn hs hid, eligible_position]
      exact hcons.eligible
    rw [selected_of_eligible (Module.wire_mem (standIn_lt hs hid)) helig,
      selected_of_eligible (Module.wire_mem hid) hcons.eligible]
  · have hq : Quiet e s.module := fun id i h => absurd ⟨id, i, h⟩ hdrive
    rw [(complete_of_quiet hs hp hq).1]

end

/-! ## Second visits -/

namespace Revisit
variable {e e' : Scene} {s : Insertion} {t t' : Tags} {id : WireId} {i : Nat} {q : PortBit}

theorem driven_iff (h : Revisit e s t e' t') {b : Bit} (hb : s.module.Owns b)
    (hp : netOf s.module b ∉ (s.inserted e).placed.map Prod.fst) :
    b ∈ e'.driven ↔ b ∈ e.driven := by
  rw [h.after.driven, h.before.driven, h.options, h.signatures]
  constructor
  · intro hd
    rcases mem_drivenBits_complete h.fresh h.well h.before.aliases h.outputs hd with
      hd | hplaced | ⟨f, hfeed, rfl⟩
    · exact hd.1
    · rw [(h.isNet_placed hplaced).root] at hp
      exact absurd hplaced hp
    · exact absurd hb (Module.not_owns hfeed.new 0)
  · intro hd
    exact mem_drivenBits_stays h.fresh h.before.aliases hd hp

theorem input_not_driven (h : Revisit e s t e' t') (hin : (s.module.wire id).isInput = true)
    (hi : i < (s.module.wire id).width) : Bit.wire id i ∉ e.driven := by
  rw [h.before.driven]
  intro hd
  obtain ⟨π, hπ, -, hout, he⟩ := mem_drivenBits.mp hd
  refine h.single.pin_ne_input hπ hout hin hi ?_
  rw [he]

/-- Only the top module has ports replaced. -/
theorem isTopInput_of_replaced (h : Revisit e s t e' t') {r : WireId × WireId}
    (hr : r ∈ (s.inserted e).replaced) : isTopInput s.module (s.module.wire r.1) = true := by
  obtain ⟨hin, i, hdrive⟩ := mem_actions_replace.mp ((fitted_inserted h.fresh).replaced r hr).1
  obtain ⟨hcons, -, hdriver⟩ := mem_actions_drive.mp hdrive
  exact (hasDriver_iff.mp hdriver).resolve_left (h.input_not_driven hin hcons.place)

theorem isTopInput_revisit (h : Revisit e s t e' t') {w w' : Wire} (hin : w'.isInput = w.isInput) :
    isTopInput (s.complete e).module w' = isTopInput s.module w := by
  unfold isTopInput Module.isTop
  rw [hin, complete_attributes h.fresh]

theorem parts_revisit (h : Revisit e s t e' t') {w w' : Wire} (hin : w'.isInput = w.isInput)
    (hout : w'.isOutput = w.isOutput) (b b' : Bit) :
    parts e' (s.complete e).module w' b' = [] ↔ parts e s.module w b = [] := by
  have hpad : padFor? e' (s.complete e).module w' = padFor? e s.module w := by
    unfold padFor?
    rw [h.isTopInput_revisit hin, h.options]
  rw [parts_eq_nil, parts_eq_nil, hpad]
  unfold bufferFor?
  rw [hpad, hout, h.options, h.pads]

/-- Where a net has been given no cell, nothing that takes one was driven at the start. -/
theorem parts_of_not_placed (h : Revisit e s t e' t') (hdrive : .drive id i ∈ actions e s.module)
    (hp : netOf s.module (.wire id i) ∉ (s.inserted e).placed.map Prod.fst) :
    parts e s.module (s.module.wire id) (.wire id i) = [] := by
  by_contra hne
  refine hp ((mem_placed_inserted h.fresh _).mpr ⟨id, i, hdrive, hne, ?_⟩)
  rw [h.before.aliases]
  rfl

/-- A wire that has been kept is considered at both visits or at none. -/
theorem considered_kept (h : Revisit e s t e' t') {id' : WireId} {position : Nat}
    (hw : (s.complete e).module.wire id' = { s.module.wire id with position }) :
    Considered e' (s.complete e).module id' i ↔ Considered e s.module id i := by
  have helig : e'.options.eligible (s.complete e).module ((s.complete e).module.wire id') =
      e.options.eligible s.module (s.module.wire id) := by
    rw [h.options, eligible_congr (complete_name h.fresh), hw, eligible_position]
  constructor
  · intro hc
    have hplace := hc.place
    have hone := hc.one_way
    rw [hw] at hplace hone
    exact ⟨hplace, hone, helig ▸ hc.eligible⟩
  · intro hc
    refine ⟨?_, ?_, helig ▸ hc.eligible⟩
    · rw [hw]
      exact hc.place
    · rw [hw]
      exact hc.one_way

theorem hasDriver_kept (h : Revisit e s t e' t') {w' : Wire}
    (hin : w'.isInput = (s.module.wire id).isInput) (hi : i < (s.module.wire id).width)
    (hp : netOf s.module (.wire id i) ∉ (s.inserted e).placed.map Prod.fst) :
    hasDriver e' (s.complete e).module w' (.wire id i) =
      hasDriver e s.module (s.module.wire id) (.wire id i) := by
  have howns : s.module.Owns (.wire id i) := Module.lt_of_place hi
  have hdriven : e'.driven.contains (.wire id i) = e.driven.contains (.wire id i) := by
    rw [List.contains_eq_mem, List.contains_eq_mem, decide_eq_decide]
    exact h.driven_iff howns hp
  unfold hasDriver
  rw [hdriven, h.isTopInput_revisit hin]

/-- The bit of an own wire that wants a clock in the end wanted one at the start, and its net has
been given no cell. -/
theorem wanting_own (h : Revisit e s t e' t') {b : Bit} (hb : s.module.Owns b)
    (hw : e'.clocks.Wanting (e'.aliases.root b)) :
    e.clocks.Wanting (e.aliases.root b) ∧
      netOf s.module b ∉ (s.inserted e).placed.map Prod.fst := by
  rw [h.after.aliases] at hw
  obtain ⟨x, hx, he, hwants, hp⟩ := h.wanting_revisit hw
  have hroot : netOf s.module b = x := by
    rw [← hx.root]
    exact (netOf_complete_iff h.fresh h.well h.before.aliases hb hx.owns).mp he
  have hroot' : e.aliases.root b = x := by
    rw [h.before.aliases]
    exact hroot
  exact ⟨hroot' ▸ hwants, hroot ▸ hp⟩

theorem wanting_copy (h : Revisit e s t e' t') {r : WireId × WireId}
    (hr : r ∈ (s.inserted e).replaced) (hi : i < (s.module.wire r.1).width)
    (hw : e'.clocks.Wanting (e'.aliases.root (.wire r.2 i))) :
    e.clocks.Wanting (e.aliases.root (.wire r.1 i)) ∧
      netOf s.module (.wire r.1 i) ∉ (s.inserted e).placed.map Prod.fst := by
  have hnet : e'.aliases.root = netOf (s.complete e).module := by
    rw [h.after.aliases]
    rfl
  rcases netOf_complete_copy h.fresh h.well h.before.aliases hr hi with he | ⟨p, hp, he⟩
  · refine h.wanting_own (lt_of_mem_replaced h.fresh hr) ?_
    rw [hnet] at hw ⊢
    rwa [← he]
  · rw [hnet, he] at hw
    obtain ⟨x, hx, hfeed, -⟩ := h.wanting_revisit hw
    exact absurd hfeed.symm (netOf_complete_feed h.fresh h.well h.before.aliases hx.owns
      ((fitted_inserted h.fresh).placed _ p hp).isFeed 0)

theorem not_wanting_feed (h : Revisit e s t e' t') (hfeed : IsFeed s.module (s.inserted e) id)
    (i : Nat) : ¬ e'.clocks.Wanting (e'.aliases.root (.wire id i)) := by
  rw [h.after.aliases]
  intro hw
  obtain ⟨x, hx, he, -⟩ := h.wanting_revisit hw
  exact absurd he.symm (netOf_complete_feed h.fresh h.well h.before.aliases hx.owns hfeed i)

/-- Nothing is done at the second visit. -/
theorem quiet_revisit (h : Revisit e s t e' t') : Quiet e' (s.complete e).module := by
  intro id i hdrive
  obtain ⟨hcons, hwants, hdriver⟩ := mem_actions_drive.mp hdrive
  rcases complete_wire_cases h.fresh (Module.lt_of_place hcons.place) with
    ⟨hid, hkept, hw⟩ | ⟨r, hr, rfl, hin, -, hwidth⟩ | ⟨r, hr, rfl, hw⟩ | ⟨hfeed, -⟩
  · -- a wire that has been kept was driven at the first visit and took no cell then
    obtain ⟨hwants₀, hp⟩ := h.wanting_own (b := .wire id i) hid hwants
    have hcons₀ := (h.considered_kept hw).mp hcons
    have hin : ((s.complete e).module.wire id).isInput = (s.module.wire id).isInput := by rw [hw]
    have hout : ((s.complete e).module.wire id).isOutput = (s.module.wire id).isOutput := by
      rw [hw]
    rw [h.hasDriver_kept hin hcons₀.place hp] at hdriver
    have hdrive₀ := mem_actions_drive.mpr ⟨hcons₀, hwants₀, hdriver⟩
    refine ⟨?_, (h.parts_revisit hin hout _ _).mpr (h.parts_of_not_placed hdrive₀ hp)⟩
    rw [hin]
    by_contra hinput
    exact hkept (mem_actions_replace.mpr ⟨Bool.eq_true_of_not_eq_false hinput, i, hdrive₀⟩)
  · -- a replaced port has no role any more, and no cell drove it
    have hport := (mem_actions_replace.mp ((fitted_inserted h.fresh).replaced r hr).1).1
    have hi : i < (s.module.wire r.1).width := hwidth ▸ hcons.place
    obtain ⟨-, hp⟩ := h.wanting_own (b := .wire r.1 i) (lt_of_mem_replaced h.fresh hr) hwants
    have hfree := h.input_not_driven hport hi
    rw [← h.driven_iff (b := .wire r.1 i) (lt_of_mem_replaced h.fresh hr) hp] at hfree
    obtain ⟨hinput, -⟩ := isTopInput_iff.mp ((hasDriver_iff.mp hdriver).resolve_left hfree)
    rw [hin] at hinput
    cases hinput
  · -- a port that has been replaced took a cell at every net that wanted one
    have hcons₀ := (h.considered_kept hw).mp hcons
    obtain ⟨hwants₀, hp⟩ := h.wanting_copy hr hcons₀.place hwants
    have htop := h.isTopInput_of_replaced hr
    have hdrive₀ : .drive r.1 i ∈ actions e s.module :=
      mem_actions_drive.mpr ⟨hcons₀, hwants₀, hasDriver_iff.mpr (.inr htop)⟩
    have hin := (mem_actions_replace.mp ((fitted_inserted h.fresh).replaced r hr).1).1
    exact absurd (h.parts_of_not_placed hdrive₀ hp)
      (parts_ne_nil _ h.given htop (hcons₀.not_output hin))
  · exact absurd hwants (h.not_wanting_feed hfeed i)

/-! ## What is published -/

/-- An input port that nothing drives has not been replaced. -/
theorem kept_of_free (h : Revisit e s t e' t')
    (hfree : hasDriver e s.module (s.module.wire id) (.wire id i) = false) :
    .replace id ∉ actions e s.module := by
  intro hrep
  obtain ⟨r, hr, rfl⟩ := List.mem_map.mp ((mem_replaced_inserted h.fresh id).mpr hrep)
  rw [hasDriver_iff.mpr (.inr (h.isTopInput_of_replaced hr))] at hfree
  cases hfree

/-- Its net has been given no cell, because there is no other place that drives it. -/
theorem not_placed_of_free (h : Revisit e s t e' t') (hin : (s.module.wire id).isInput = true)
    (hi : i < (s.module.wire id).width)
    (hfree : hasDriver e s.module (s.module.wire id) (.wire id i) = false) :
    netOf s.module (.wire id i) ∉ (s.inserted e).placed.map Prod.fst := by
  intro hp
  obtain ⟨id', j, hdrive, he⟩ := drive_of_placed h.fresh hp
  obtain ⟨-, -, hdriver⟩ := mem_actions_drive.mp hdrive
  rw [h.before.aliases] at he
  rcases hasDriver_iff.mp hdriver with hd | htop
  · rw [h.before.driven] at hd
    obtain ⟨π, hπ, -, hout, hbit⟩ := mem_drivenBits.mp hd
    refine h.single.pin_ne_input hπ hout hin hi ?_
    rw [hbit]
    exact he.symm
  · -- all inputs of the top module have a driver
    have htop' := isTopInput_iff.mpr ⟨hin, (isTopInput_iff.mp htop).2⟩
    rw [hasDriver_iff.mpr (.inr htop')] at hfree
    cases hfree

/-- A sink that is published at the second visit was published at the first. -/
theorem publishSink_before (h : Revisit e s t e' t')
    (hpub : .publishSink id i ∈ actions e' (s.complete e).module) :
    .publishSink id i ∈ actions e s.module ∧
      ((s.complete e).module.wire id).name = (s.module.wire id).name := by
  obtain ⟨hcons, hwants, hdriver, hinput⟩ := mem_actions_publishSink.mp hpub
  rcases complete_wire_cases h.fresh (Module.lt_of_place hcons.place) with
    ⟨hid, -, hw⟩ | ⟨r, -, rfl, hin, -⟩ | ⟨r, hr, rfl, hw⟩ | ⟨-, name, hw⟩
  · obtain ⟨hwants₀, hp⟩ := h.wanting_own (b := .wire id i) hid hwants
    have hcons₀ := (h.considered_kept hw).mp hcons
    have hin : ((s.complete e).module.wire id).isInput = (s.module.wire id).isInput := by
      rw [hw]
    rw [h.hasDriver_kept hin hcons₀.place hp] at hdriver
    refine ⟨mem_actions_publishSink.mpr ⟨hcons₀, hwants₀, hdriver, hin ▸ hinput⟩, ?_⟩
    rw [hw]
  · rw [hin] at hinput
    cases hinput
  · have hin : ((s.complete e).module.wire r.2).isInput = (s.module.wire r.1).isInput := by
      rw [hw]
    have htop := h.isTopInput_of_replaced hr
    rw [← h.isTopInput_revisit hin] at htop
    rw [hasDriver_iff.mpr (.inr htop)] at hdriver
    cases hdriver
  · rw [hw] at hinput
    cases hinput

theorem publishSink_after (h : Revisit e s t e' t')
    (hpub : .publishSink id i ∈ actions e s.module) :
    .publishSink id i ∈ actions e' (s.complete e).module ∧
      ((s.complete e).module.wire id).name = (s.module.wire id).name := by
  obtain ⟨hcons, hwants, hdriver, hinput⟩ := mem_actions_publishSink.mp hpub
  have hw := complete_wire_kept (e := e) h.fresh (Module.lt_of_place hcons.place)
    (h.kept_of_free hdriver)
  have hin : ((s.complete e).module.wire id).isInput = (s.module.wire id).isInput := by rw [hw]
  have hp := h.not_placed_of_free hinput hcons.place hdriver
  refine ⟨mem_actions_publishSink.mpr ⟨(h.considered_kept hw).mpr hcons, ?_, ?_, ?_⟩, ?_⟩
  · rw [h.before.aliases] at hwants
    rw [h.after.aliases]
    exact h.wanting_of_input hinput hcons.place hwants hp
  · rw [h.hasDriver_kept hin hcons.place hp]
    exact hdriver
  · rw [hin]
    exact hinput
  · rw [hw]

theorem publishSink_revisit (h : Revisit e s t e' t') :
    (∃ id i, .publishSink id i ∈ actions e' (s.complete e).module ∧
      q = ⟨(s.complete e).module.name, ((s.complete e).module.wire id).name, i⟩) ↔
    ∃ id i, .publishSink id i ∈ actions e s.module ∧
      q = ⟨s.module.name, (s.module.wire id).name, i⟩ := by
  rw [complete_name h.fresh]
  constructor
  · intro hex
    obtain ⟨id, i, hpub, rfl⟩ := hex
    obtain ⟨hold, hname⟩ := h.publishSink_before hpub
    exact ⟨id, i, hold, by rw [hname]⟩
  · intro hex
    obtain ⟨id, i, hpub, rfl⟩ := hex
    obtain ⟨hnew, hname⟩ := h.publishSink_after hpub
    exact ⟨id, i, hnew, by rw [hname]⟩

/-- What has been published as buffered is published again. -/
theorem publishBuffered_revisit (h : Revisit e s t e' t')
    (hb : ∃ id i, (.publishBuffered id i ∈ actions e s.module ∨
      Retagged e s.module (s.inserted e).placed id i) ∧
      q = ⟨s.module.name, (s.module.wire id).name, i⟩) :
    ∃ id i, .publishBuffered id i ∈ actions e' (s.complete e).module ∧
      q = ⟨(s.complete e).module.name, ((s.complete e).module.wire id).name, i⟩ := by
  obtain ⟨id, i, hpub, rfl⟩ := hb
  obtain ⟨hplace, hout, hin⟩ := role_of_buffered hpub
  -- in either case the net counts as buffered in the end
  have hsup : e.options.eligible s.module (s.module.wire id) = true →
      Clocks.Supplied (invertersIn t' (s.complete e).module) (shown t' (s.complete e).module)
        (netOf (s.complete e).module (.wire id i)) := by
    intro helig
    rw [← h.netOf_root]
    rcases hpub with hpub | ⟨-, -, hp⟩
    · obtain ⟨-, -, -, hbuf⟩ := mem_actions_publishBuffered.mp hpub
      have hold := hbuf helig
      rw [h.before.aliases, h.before.clocks, Clocks.mem_buffered_settle h.inverters_unique] at hold
      exact h.supplied_revisit hold
    · rw [h.before.aliases] at hp
      exact .buffered (h.shown_of_placed hp)
  have hkept : .replace id ∉ actions e s.module := by
    intro hr
    obtain ⟨hinput, -⟩ := mem_actions_replace.mp hr
    rw [hin] at hinput
    cases hinput
  have hw := complete_wire_kept (e := e) h.fresh (Module.lt_of_place hplace) hkept
  refine ⟨id, i, mem_actions_publishBuffered.mpr ⟨?_, ?_, ?_, ?_⟩, ?_⟩
  · rw [hw]
    exact hplace
  · rw [hw]
    exact hout
  · rw [hw]
    exact hin
  · intro helig
    rw [h.options, eligible_congr (complete_name h.fresh), hw, eligible_position] at helig
    rw [h.after.aliases, h.after.clocks, Clocks.mem_buffered_settle h.inverters_unique_revisit]
    exact hsup helig
  · rw [complete_name h.fresh, hw]

end Revisit

end ClockNet.Buffering

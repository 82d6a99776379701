import ClockNet.Proofs.Clocks
import ClockNet.Proofs.Growth

/-! # What a run does in a module, decided beforehand

What is done at each place of a module follows from the scene and the module as it was at the
start: insertion only appends, and what it appends is not looked at. So the walk over the wires
is one list of actions, carried out in order (`visitWires_eq`), and what is published, placed or
replaced in the end is read off that list. -/

namespace ClockNet.Buffering

inductive Action where
  | drive (id : WireId) (index : Nat)
  | publishSink (id : WireId) (index : Nat)
  | publishBuffered (id : WireId) (index : Nat)
  | replace (id : WireId)
deriving DecidableEq

/-- Carries out an action; `m` is the module as it was at the start. -/
def Action.apply (e : Scene) (m : Module) (s : Insertion) : Action → Insertion
  | drive id i => s.drive e (m.wire id) i (.wire id i) (e.aliases.root (.wire id i))
  | publishSink id i => s.publishSink (m.wire id) i
  | publishBuffered id i => s.publishBuffered (m.wire id) i
  | replace id => s.replaceInput e id (m.wire id)

def bitActions (e : Scene) (m : Module) (id : WireId) (index : Nat) : List Action :=
  let w := m.wire id
  let bit := Bit.wire id index
  let net := e.aliases.root bit
  if e.clocks.buffered.contains net then if w.isOutput then [.publishBuffered id index] else []
  else if !e.clocks.sinks.contains net then []
  else if Insertion.hasDriver e m w bit then [.drive id index]
  else if w.isInput then [.publishSink id index]
  else []

def wireActions (e : Scene) (m : Module) (id : WireId) : List Action :=
  let w := m.wire id
  if w.isInput && w.isOutput then []
  else if !e.options.eligible m w then
    if w.isOutput then (List.range w.width).map (.publishBuffered id) else []
  else
    (List.range w.width).flatMap (bitActions e m id) ++
      if w.isInput && w.anyPlace fun i => Insertion.needsDriver e m w (.wire id i) then
        [.replace id]
      else []

def actions (e : Scene) (m : Module) : List Action := m.wireIds.flatMap (wireActions e m)

/-! ## The walk over the wires carries them out -/

theorem eligible_congr {m m' : Module} (h : m'.name = m.name) (o : Options) (w : Wire) :
    o.eligible m' w = o.eligible m w := by
  unfold Options.eligible Selection.selectsWire Selection.moduleMatches
  rw [h]

theorem hasDriver_grown {m m' : Module} (h : m.Grown m') (e : Scene) (w : Wire) (bit : Bit) :
    Insertion.hasDriver e m' w bit = Insertion.hasDriver e m w bit := by
  unfold Insertion.hasDriver Insertion.isTopInput
  rw [h.isTop]

theorem needsDriver_grown {m m' : Module} (h : m.Grown m') (e : Scene) (w : Wire) (bit : Bit) :
    Insertion.needsDriver e m' w bit = Insertion.needsDriver e m w bit := by
  unfold Insertion.needsDriver
  rw [hasDriver_grown h]

theorem parts_grown {m m' : Module} (h : m.Grown m') (e : Scene) (w : Wire) (bit : Bit) :
    parts e m' w bit = parts e m w bit := by
  unfold parts Insertion.bufferFor?
  rw [Insertion.padFor?_grown h]

namespace Action
variable {e : Scene} {m : Module}

theorem grown_apply (e : Scene) (m : Module) (s : Insertion) (a : Action) :
    s.module.Grown (a.apply e m s).module := by
  cases a with
  | drive id i => exact Insertion.grown_drive e s _ _ _ _
  | publishSink id i => exact Module.Grown.refl _
  | publishBuffered id i => exact Module.Grown.refl _
  | replace id => exact Insertion.grown_replaceInput e s id _

theorem grown_foldl (e : Scene) (m : Module) (as : List Action) (s : Insertion) :
    s.module.Grown (as.foldl (apply e m) s).module := by
  induction as generalizing s with
  | nil => exact Module.Grown.refl _
  | cons a rest ih => exact (grown_apply e m s a).trans (ih _)

end Action

namespace Insertion
variable {e : Scene} {m : Module}

theorem visitBit_eq {s : Insertion} (h : m.Grown s.module) (id : WireId) (index : Nat) :
    visitBit e id (m.wire id) s index = (bitActions e m id index).foldl (Action.apply e m) s := by
  unfold visitBit bitActions
  simp only [hasDriver_grown h]
  split
  · split <;> rfl
  · split
    · rfl
    · split
      · rfl
      · split <;> rfl

theorem foldl_visitBit {s : Insertion} (h : m.Grown s.module) (id : WireId) (places : List Nat) :
    places.foldl (visitBit e id (m.wire id)) s =
      (places.flatMap (bitActions e m id)).foldl (Action.apply e m) s := by
  induction places generalizing s with
  | nil => rfl
  | cons i rest ih =>
    rw [List.foldl_cons, List.flatMap_cons, List.foldl_append, visitBit_eq h,
      ih (h.trans (Action.grown_foldl e m _ s))]

theorem visitWire_eq {s : Insertion} (h : m.Grown s.module) {id : WireId}
    (hid : id < m.wires.length) :
    s.visitWire e id = (wireActions e m id).foldl (Action.apply e m) s := by
  have hany : (fun i => needsDriver e s.module (m.wire id) (.wire id i)) =
      fun i => needsDriver e m (m.wire id) (.wire id i) :=
    funext fun i => needsDriver_grown h e _ _
  unfold visitWire wireActions
  simp only [h.wire hid, eligible_congr h.name, Wire.foldPlaces_eq, foldl_visitBit h, hany]
  split
  · rfl
  · split
    · split
      · rw [List.foldl_map]; rfl
      · rfl
    · rw [List.foldl_append]
      split <;> rfl

/-- The walk over the wires carries out the actions of the module as it was at the start. -/
theorem visitWires_eq (e : Scene) (s : Insertion) :
    s.visitWires e = (actions e s.module).foldl (Action.apply e s.module) s := by
  have go : ∀ (ids : List WireId) (t : Insertion), (∀ id ∈ ids, id < s.module.wires.length) →
      s.module.Grown t.module → ids.foldl (visitWire e) t =
        (ids.flatMap (wireActions e s.module)).foldl (Action.apply e s.module) t := by
    intro ids
    induction ids with
    | nil => intro t _ _; rfl
    | cons id rest ih =>
      intro t hids ht
      rw [List.foldl_cons, List.flatMap_cons, List.foldl_append,
        visitWire_eq ht (hids id List.mem_cons_self)]
      exact ih _ (fun i hi => hids i (List.mem_cons_of_mem _ hi))
        (ht.trans (Action.grown_foldl e _ _ t))
  exact go s.module.wireIds s (fun id hid => List.mem_range.mp hid) (Module.Grown.refl _)

end Insertion

/-! ## Which actions there are -/

/-- The place belongs to an eligible wire that is not inout. -/
structure Considered (e : Scene) (m : Module) (id : WireId) (index : Nat) : Prop where
  place : index < (m.wire id).width
  one_way : ¬ ((m.wire id).isInput = true ∧ (m.wire id).isOutput = true)
  eligible : e.options.eligible m (m.wire id) = true

section Members
variable {e : Scene} {m : Module} {id : WireId} {index : Nat}

theorem Considered.not_output (h : Considered e m id index) (hin : (m.wire id).isInput = true) :
    (m.wire id).isOutput = false := by
  have hone := h.one_way
  simpa [hin] using hone

theorem mem_bitActions {a : Action} : a ∈ bitActions e m id index ↔
    (a = .publishBuffered id index ∧ e.aliases.root (.wire id index) ∈ e.clocks.buffered ∧
      (m.wire id).isOutput = true) ∨
    (e.clocks.Wanting (e.aliases.root (.wire id index)) ∧
      ((a = .drive id index ∧ Insertion.hasDriver e m (m.wire id) (.wire id index) = true) ∨
        (a = .publishSink id index ∧
          Insertion.hasDriver e m (m.wire id) (.wire id index) = false ∧
          (m.wire id).isInput = true))) := by
  unfold bitActions Clocks.Wanting
  by_cases hb : e.aliases.root (.wire id index) ∈ e.clocks.buffered
  · by_cases ho : (m.wire id).isOutput = true <;> simp [hb, ho]
  · by_cases hs : e.aliases.root (.wire id index) ∈ e.clocks.sinks
    · cases hd : Insertion.hasDriver e m (m.wire id) (.wire id index) with
      | true => simp [hb, hs, hd]
      | false => by_cases hi : (m.wire id).isInput = true <;> simp [hb, hs, hd, hi]
    · simp [hb, hs]

theorem mem_actions {a : Action} :
    a ∈ actions e m ↔ ∃ id < m.wires.length, a ∈ wireActions e m id := by
  unfold actions Module.wireIds
  simp only [List.mem_flatMap, List.mem_range]

theorem mem_wireActions {a : Action} : a ∈ wireActions e m id ↔
    ¬ ((m.wire id).isInput = true ∧ (m.wire id).isOutput = true) ∧
    ((e.options.eligible m (m.wire id) = false ∧ (m.wire id).isOutput = true ∧
        ∃ i < (m.wire id).width, a = .publishBuffered id i) ∨
      (e.options.eligible m (m.wire id) = true ∧
        ((∃ i < (m.wire id).width, a ∈ bitActions e m id i) ∨
          (a = .replace id ∧ (m.wire id).isInput = true ∧ ∃ i < (m.wire id).width,
            Insertion.needsDriver e m (m.wire id) (.wire id i) = true)))) := by
  unfold wireActions
  simp only [Wire.anyPlace_eq]
  by_cases hio : (m.wire id).isInput = true ∧ (m.wire id).isOutput = true
  · simp [hio.1, hio.2]
  · have hio' : ((m.wire id).isInput && (m.wire id).isOutput) = false := by
      rw [← Bool.not_eq_true, Bool.and_eq_true]; exact hio
    simp only [hio', Bool.false_eq_true, if_false, hio, not_false_iff, true_and]
    cases he : e.options.eligible m (m.wire id) with
    | false =>
      simp only [Bool.not_false, if_true, List.mem_ite_nil_right, List.mem_map, List.mem_range,
        true_and, Bool.false_eq_true, false_and, or_false]
      refine and_congr_right fun _ => exists_congr fun i => and_congr_right fun _ => eq_comm
    | true =>
      simp only [Bool.not_true, Bool.false_eq_true, if_false, List.mem_append, List.mem_flatMap,
        List.mem_range, List.mem_ite_nil_right, List.mem_singleton, Bool.and_eq_true,
        List.any_eq_true, true_and, reduceCtorEq, false_and, false_or]
      refine or_congr_right ⟨fun ⟨⟨hi, hn⟩, ha⟩ => ⟨ha, hi, hn⟩, fun ⟨ha, hi, hn⟩ => ⟨⟨hi, hn⟩, ha⟩⟩

theorem mem_actions_drive : .drive id index ∈ actions e m ↔ Considered e m id index ∧
    e.clocks.Wanting (e.aliases.root (.wire id index)) ∧
    Insertion.hasDriver e m (m.wire id) (.wire id index) = true := by
  simp only [mem_actions, mem_wireActions, mem_bitActions, Action.drive.injEq, reduceCtorEq,
    false_and, and_false, exists_const, or_false, false_or]
  constructor
  · intro h
    obtain ⟨id', -, hone, he, i, hi, hw, ⟨rfl, rfl⟩, hd⟩ := h
    exact ⟨⟨hi, hone, he⟩, hw, hd⟩
  · intro h
    obtain ⟨⟨hi, hone, he⟩, hw, hd⟩ := h
    exact ⟨id, Module.lt_of_place hi, hone, he, index, hi, hw, ⟨rfl, rfl⟩, hd⟩

theorem mem_actions_publishSink : .publishSink id index ∈ actions e m ↔
    Considered e m id index ∧ e.clocks.Wanting (e.aliases.root (.wire id index)) ∧
    Insertion.hasDriver e m (m.wire id) (.wire id index) = false ∧
    (m.wire id).isInput = true := by
  simp only [mem_actions, mem_wireActions, mem_bitActions, Action.publishSink.injEq,
    reduceCtorEq, false_and, and_false, exists_const, or_false, false_or]
  constructor
  · intro h
    obtain ⟨id', -, hone, he, i, hi, hw, ⟨rfl, rfl⟩, hd, hin⟩ := h
    exact ⟨⟨hi, hone, he⟩, hw, hd, hin⟩
  · intro h
    obtain ⟨⟨hi, hone, he⟩, hw, hd, hin⟩ := h
    exact ⟨id, Module.lt_of_place hi, hone, he, index, hi, hw, ⟨rfl, rfl⟩, hd, hin⟩

theorem mem_actions_publishBuffered : .publishBuffered id index ∈ actions e m ↔
    index < (m.wire id).width ∧ (m.wire id).isOutput = true ∧ (m.wire id).isInput = false ∧
    (e.options.eligible m (m.wire id) = true →
      e.aliases.root (.wire id index) ∈ e.clocks.buffered) := by
  simp only [mem_actions, mem_wireActions, mem_bitActions, Action.publishBuffered.injEq,
    reduceCtorEq, false_and, and_false, or_false]
  constructor
  · intro hex
    rcases hex with ⟨id', -, hone, ⟨he, ho, i, hi, rfl, rfl⟩ | ⟨he, i, hi, ⟨rfl, rfl⟩, hb, ho⟩⟩
    · exact ⟨hi, ho, by simpa [ho] using hone, fun h => by rw [he] at h; cases h⟩
    · exact ⟨hi, ho, by simpa [ho] using hone, fun _ => hb⟩
  · intro hex
    obtain ⟨hi, ho, hin, hb⟩ := hex
    refine ⟨id, Module.lt_of_place hi, by simp [hin], ?_⟩
    cases he : e.options.eligible m (m.wire id) with
    | false => exact .inl ⟨rfl, ho, index, hi, rfl, rfl⟩
    | true => exact .inr ⟨rfl, index, hi, ⟨rfl, rfl⟩, hb he, ho⟩

theorem mem_actions_replace : .replace id ∈ actions e m ↔
    (m.wire id).isInput = true ∧ ∃ i, .drive id i ∈ actions e m := by
  simp only [mem_actions_drive]
  simp only [mem_actions, mem_wireActions, mem_bitActions, Action.replace.injEq, reduceCtorEq,
    false_and, and_false, exists_const, or_false, false_or]
  have hneeds : ∀ id i, Insertion.needsDriver e m (m.wire id) (.wire id i) = true ↔
      e.clocks.Wanting (e.aliases.root (.wire id i)) ∧
        Insertion.hasDriver e m (m.wire id) (.wire id i) = true := by
    intro id i
    simp only [Insertion.needsDriver, Clocks.Wanting, Bool.and_eq_true, Bool.not_eq_true',
      List.contains_eq_mem, decide_eq_true_eq, decide_eq_false_iff_not]
    tauto
  constructor
  · intro h
    obtain ⟨id', -, hone, he, rfl, hin, i, hi, hn⟩ := h
    exact ⟨hin, i, ⟨hi, hone, he⟩, (hneeds _ _).mp hn⟩
  · intro h
    obtain ⟨hin, i, ⟨hi, hone, he⟩, hn⟩ := h
    exact ⟨id, Module.lt_of_place hi, hone, he, rfl, hin, i, hi, (hneeds _ _).mpr hn⟩

end Members

/-! ## What the actions do to the tags, the placements and the replaced ports -/

theorem mem_placed {s : Insertion} {net : Bit} :
    net ∈ s.placed.map Prod.fst ↔ ∃ p, s.placedOn? net = some p := by
  unfold Insertion.placedOn?
  constructor
  · intro h
    obtain ⟨q, hq, rfl⟩ := List.mem_map.mp h
    cases hf : s.placed.find? (·.1 == q.1) with
    | none => exact absurd (List.find?_eq_none.mp hf q hq) (by simp)
    | some r => exact ⟨r.2, rfl⟩
  · intro hex
    obtain ⟨p, hp⟩ := hex
    obtain ⟨q, hq, rfl⟩ := Option.map_eq_some_iff.mp hp
    have hn : q.1 = net := by simpa using List.find?_some hq
    exact hn ▸ List.mem_map_of_mem (List.mem_of_find?_eq_some hq)

theorem mem_of_placedOn? {s : Insertion} {net : Bit} {p : Placement}
    (h : s.placedOn? net = some p) : (net, p) ∈ s.placed := by
  obtain ⟨q, hq, rfl⟩ := Option.map_eq_some_iff.mp h
  have hn : q.1 = net := by simpa using List.find?_some hq
  exact hn ▸ List.mem_of_find?_eq_some hq

theorem placedOn?_eq_none {s : Insertion} {net : Bit} :
    s.placedOn? net = none ↔ net ∉ s.placed.map Prod.fst := by
  rw [mem_placed, Option.eq_none_iff_forall_ne_some, not_exists]

namespace Action
variable {e : Scene} {m : Module}

/-- The port whose replacement an action is. -/
def replaces? : Action → Option WireId
  | replace id => some id
  | _ => none

/-- What one action does to the tags, the placements and the list of replaced ports. -/
theorem apply_cases {s : Insertion} (h : m.Grown s.module) (a : Action) :
    (∃ id i, a = .drive id i ∧ (a.apply e m s).tags = s.tags ∧
      (a.apply e m s).replaced = s.replaced ∧
      (a.apply e m s).placed = (if parts e m (m.wire id) (.wire id i) = [] then s.placed else
        (e.aliases.root (.wire id i), ⟨s.module.cells.length, s.module.wires.length +
          (parts e m (m.wire id) (.wire id i)).length - 1⟩) :: s.placed)) ∨
    (∃ id i, a = .publishSink id i ∧
      a.apply e m s = { s with tags := s.tags.addSink ⟨m.name, (m.wire id).name, i⟩ }) ∨
    (∃ id i, a = .publishBuffered id i ∧
      a.apply e m s = { s with tags := s.tags.addBuffered ⟨m.name, (m.wire id).name, i⟩ }) ∨
    (∃ id, a = .replace id ∧ (a.apply e m s).tags = s.tags ∧
      (a.apply e m s).placed = s.placed ∧
      (a.apply e m s).replaced = s.replaced ++ [(id, s.module.wires.length)]) := by
  cases a with
  | drive id i =>
    obtain ⟨-, hp, ht, hr⟩ := Insertion.drive_spec e s (m.wire id) i (.wire id i)
      (e.aliases.root (.wire id i))
    rw [parts_grown h] at hp
    exact .inl ⟨id, i, rfl, ht, hr, hp⟩
  | publishSink id i =>
    refine .inr (.inl ⟨id, i, rfl, ?_⟩)
    rw [← h.name]
    rfl
  | publishBuffered id i =>
    refine .inr (.inr (.inl ⟨id, i, rfl, ?_⟩))
    rw [← h.name]
    rfl
  | replace id =>
    obtain ⟨name, n, -, he⟩ := Insertion.replaceInput_module e s id (m.wire id)
    refine .inr (.inr (.inr ⟨id, rfl, ?_⟩))
    dsimp only [apply]
    rw [he]
    exact ⟨rfl, rfl, rfl⟩

theorem mem_sinks_foldl (as : List Action) {s : Insertion} (h : m.Grown s.module) (p : PortBit) :
    p ∈ (as.foldl (apply e m) s).tags.sinks ↔ p ∈ s.tags.sinks ∨
      ∃ id i, .publishSink id i ∈ as ∧ p = ⟨m.name, (m.wire id).name, i⟩ := by
  induction as generalizing s with
  | nil => simp
  | cons a rest ih =>
    rw [List.foldl_cons, ih (h.trans (grown_apply e m s a))]
    rcases apply_cases (e := e) h a with ⟨id, i, rfl, ht, -⟩ | ⟨id, i, rfl, he⟩ |
      ⟨id, i, rfl, he⟩ | ⟨id, rfl, ht, -⟩
    · simp [ht]
    · simp only [he, Tags.addSink, List.mem_insert_iff, List.mem_cons, Action.publishSink.injEq]
      constructor
      · intro hex
        rcases hex with (rfl | hp) | ⟨id', i', ha, rfl⟩
        · exact .inr ⟨id, i, .inl ⟨rfl, rfl⟩, rfl⟩
        · exact .inl hp
        · exact .inr ⟨id', i', .inr ha, rfl⟩
      · intro hex
        rcases hex with hp | ⟨id', i', ⟨rfl, rfl⟩ | ha, rfl⟩
        · exact .inl (.inr hp)
        · exact .inl (.inl rfl)
        · exact .inr ⟨id', i', ha, rfl⟩
    · simp [he, Tags.addBuffered]
    · simp [ht]

theorem mem_buffered_foldl (as : List Action) {s : Insertion} (h : m.Grown s.module)
    (p : PortBit) : p ∈ (as.foldl (apply e m) s).tags.buffered ↔ p ∈ s.tags.buffered ∨
      ∃ id i, .publishBuffered id i ∈ as ∧ p = ⟨m.name, (m.wire id).name, i⟩ := by
  induction as generalizing s with
  | nil => simp
  | cons a rest ih =>
    rw [List.foldl_cons, ih (h.trans (grown_apply e m s a))]
    rcases apply_cases (e := e) h a with ⟨id, i, rfl, ht, -⟩ | ⟨id, i, rfl, he⟩ |
      ⟨id, i, rfl, he⟩ | ⟨id, rfl, ht, -⟩
    · simp [ht]
    · simp [he, Tags.addSink]
    · simp only [he, Tags.addBuffered, List.mem_insert_iff, List.mem_cons,
        Action.publishBuffered.injEq]
      constructor
      · intro hex
        rcases hex with (rfl | hp) | ⟨id', i', ha, rfl⟩
        · exact .inr ⟨id, i, .inl ⟨rfl, rfl⟩, rfl⟩
        · exact .inl hp
        · exact .inr ⟨id', i', .inr ha, rfl⟩
      · intro hex
        rcases hex with hp | ⟨id', i', ⟨rfl, rfl⟩ | ha, rfl⟩
        · exact .inl (.inr hp)
        · exact .inl (.inl rfl)
        · exact .inr ⟨id', i', ha, rfl⟩
    · simp [ht]

theorem foldl_tags (as : List Action) {s : Insertion} (h : m.Grown s.module) :
    (as.foldl (apply e m) s).tags.inverters = s.tags.inverters ∧
    (as.foldl (apply e m) s).tags.clocked = s.tags.clocked := by
  induction as generalizing s with
  | nil => exact ⟨rfl, rfl⟩
  | cons a rest ih =>
    obtain ⟨hi, hc⟩ := ih (h.trans (grown_apply e m s a))
    rw [List.foldl_cons, hi, hc]
    rcases apply_cases (e := e) h a with ⟨id, i, rfl, ht, -⟩ | ⟨id, i, rfl, he⟩ |
      ⟨id, i, rfl, he⟩ | ⟨id, rfl, ht, -⟩
    · rw [ht]; exact ⟨rfl, rfl⟩
    · rw [he]; exact ⟨rfl, rfl⟩
    · rw [he]; exact ⟨rfl, rfl⟩
    · rw [ht]; exact ⟨rfl, rfl⟩

/-- Something is placed on a net exactly where it is driven and takes a cell there. -/
theorem mem_placed_foldl (as : List Action) {s : Insertion} (h : m.Grown s.module) (net : Bit) :
    net ∈ (as.foldl (apply e m) s).placed.map Prod.fst ↔ net ∈ s.placed.map Prod.fst ∨
      ∃ id i, .drive id i ∈ as ∧ parts e m (m.wire id) (.wire id i) ≠ [] ∧
        net = e.aliases.root (.wire id i) := by
  induction as generalizing s with
  | nil => simp
  | cons a rest ih =>
    rw [List.foldl_cons, ih (h.trans (grown_apply e m s a))]
    rcases apply_cases (e := e) h a with ⟨id, i, rfl, -, -, hp⟩ | ⟨id, i, rfl, he⟩ |
      ⟨id, i, rfl, he⟩ | ⟨id, rfl, -, hp, -⟩
    · rw [hp]
      by_cases hn : parts e m (m.wire id) (.wire id i) = []
      · simp only [hn, if_true, List.mem_cons, Action.drive.injEq]
        refine or_congr_right ⟨?_, ?_⟩
        · intro hex
          obtain ⟨id', i', ha, hne, rfl⟩ := hex
          exact ⟨id', i', .inr ha, hne, rfl⟩
        · intro hex
          rcases hex with ⟨id', i', ⟨rfl, rfl⟩ | ha, hne, rfl⟩
          · exact absurd hn hne
          · exact ⟨id', i', ha, hne, rfl⟩
      · simp only [hn, if_false, List.map_cons, List.mem_cons, Action.drive.injEq]
        constructor
        · intro hex
          rcases hex with (rfl | hp) | ⟨id', i', ha, hne, rfl⟩
          · exact .inr ⟨id, i, .inl ⟨rfl, rfl⟩, hn, rfl⟩
          · exact .inl hp
          · exact .inr ⟨id', i', .inr ha, hne, rfl⟩
        · intro hex
          rcases hex with hp | ⟨id', i', ⟨rfl, rfl⟩ | ha, hne, rfl⟩
          · exact .inl (.inr hp)
          · exact .inl (.inl rfl)
          · exact .inr ⟨id', i', ha, hne, rfl⟩
    · simp [he]
    · simp [he]
    · simp [hp]

theorem replaced_foldl (as : List Action) {s : Insertion} (h : m.Grown s.module) :
    (as.foldl (apply e m) s).replaced.map Prod.fst =
      s.replaced.map Prod.fst ++ as.filterMap replaces? := by
  induction as generalizing s with
  | nil => simp
  | cons a rest ih =>
    rw [List.foldl_cons, ih (h.trans (grown_apply e m s a))]
    rcases apply_cases (e := e) h a with ⟨id, i, rfl, -, hr, -⟩ | ⟨id, i, rfl, he⟩ |
      ⟨id, i, rfl, he⟩ | ⟨id, rfl, -, -, hr⟩
    · rw [hr]; rfl
    · rw [he]; rfl
    · rw [he]; rfl
    · rw [hr, List.map_append, List.append_assoc]; rfl

theorem nodup_replaces (e : Scene) (m : Module) : ((actions e m).filterMap replaces?).Nodup := by
  have hbit : ∀ id i, (bitActions e m id i).filterMap replaces? = [] := by
    intro id i
    refine List.filterMap_eq_nil_iff.mpr fun a ha => ?_
    rcases mem_bitActions.mp ha with ⟨rfl, -⟩ | ⟨-, ⟨rfl, -⟩ | ⟨rfl, -⟩⟩ <;> rfl
  have hbits : ∀ id, ∀ places : List Nat,
      (places.flatMap (bitActions e m id)).filterMap replaces? = [] := by
    intro id places
    induction places with
    | nil => rfl
    | cons i rest ih => rw [List.flatMap_cons, List.filterMap_append, hbit, ih]; rfl
  have hwire : ∀ id, ((wireActions e m id).filterMap replaces?).Sublist [id] := by
    intro id
    unfold wireActions
    dsimp only
    split
    · exact List.nil_sublist _
    · split
      · split
        · rw [List.filterMap_map]
          have hn : (List.range (m.wire id).width).filterMap
              (replaces? ∘ Action.publishBuffered id) = [] :=
            List.filterMap_eq_nil_iff.mpr fun _ _ => rfl
          rw [hn]
          exact List.nil_sublist _
        · exact List.nil_sublist _
      · rw [List.filterMap_append, hbits, List.nil_append]
        split
        · exact List.Sublist.refl _
        · exact List.nil_sublist _
  have hall : ∀ ids : List WireId,
      ((ids.flatMap (wireActions e m)).filterMap replaces?).Sublist ids := by
    intro ids
    induction ids with
    | nil => exact List.nil_sublist _
    | cons id rest ih =>
      rw [List.flatMap_cons, List.filterMap_append]
      exact (hwire id).append ih
  exact List.Nodup.sublist (hall m.wireIds) List.nodup_range

end Action

end ClockNet.Buffering

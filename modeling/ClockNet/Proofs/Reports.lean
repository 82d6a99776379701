import ClockNet.Proofs.Run

/-! # What a run reports

Every cell that a visit inserts is reported, with its type and the place of a wire that asks for it,
in the order in which the cells are added (`told_complete`). Over a whole run a module is reported
on by its own visit alone: first its generated clocks, then its new cells (`reports_run`). -/

namespace ClockNet.Buffering

def Event.module? : Event → Option String
  | .generatedClock _ module => some module
  | .inserting _ module _ _ => some module
  | _ => none

def Event.isGeneratedClock : Event → Bool
  | .generatedClock .. => true
  | _ => false

/-- The place at which an action inserts cells. -/
def Action.drives? : Action → Option (WireId × Nat)
  | .drive id i => some (id, i)
  | _ => none

/-- The places at which a visit inserts cells, in order. -/
def drivenPlaces (e : Scene) (m : Module) : List (WireId × Nat) :=
  (actions e m).filterMap Action.drives?

def typesAt (e : Scene) (m : Module) (q : WireId × Nat) : List String :=
  (parts e m (m.wire q.1) (.wire q.1 q.2)).map (·.type)

/-- The reports of the cells that are inserted at a place. -/
def insertingAt (m : Module) (types : WireId × Nat → List String) (q : WireId × Nat) :
    List Event :=
  (types q).map fun type => .inserting type m.name (m.wire q.1).name q.2

/-- A place at which a visit inserts cells: a bit of a wire that is considered, on a net that wants
a clock, at a driver. -/
theorem mem_drivenPlaces {e : Scene} {m : Module} {q : WireId × Nat} : q ∈ drivenPlaces e m ↔
    Considered e m q.1 q.2 ∧ e.clocks.Wanting (e.aliases.root (.wire q.1 q.2)) ∧
      Insertion.hasDriver e m (m.wire q.1) (.wire q.1 q.2) = true := by
  rw [← mem_actions_drive]
  unfold drivenPlaces
  rw [List.mem_filterMap]
  constructor
  · intro h
    obtain ⟨a, ha, he⟩ := h
    cases a with
    | drive id i =>
      cases he
      exact ha
    | publishSink | publishBuffered | replace => cases he
  · exact fun h => ⟨_, h, rfl⟩

namespace Insertion

/-! ## One visit -/

/-- One state has come from another one by inserting cells at places, and has reported each. -/
structure Told (e : Scene) (m : Module) (places : List (WireId × Nat)) (s t : Insertion) :
    Prop where
  events : t.events = s.events ++ places.flatMap (insertingAt m (typesAt e m))
  types : t.module.cells.map (·.type) =
    s.module.cells.map (·.type) ++ places.flatMap (typesAt e m)
  generated : t.stats.generatedClocks = s.stats.generatedClocks

section
variable {e : Scene} {m : Module} {s t u : Insertion} {places places' : List (WireId × Nat)}

theorem Told.silent (hevents : t.events = s.events) (hcells : t.module.cells = s.module.cells)
    (hgenerated : t.stats.generatedClocks = s.stats.generatedClocks) : Told e m [] s t := by
  refine ⟨?_, ?_, hgenerated⟩
  · rw [hevents]
    exact (List.append_nil _).symm
  · rw [hcells]
    exact (List.append_nil _).symm

theorem Told.trans (h : Told e m places s t) (h' : Told e m places' t u) :
    Told e m (places ++ places') s u := by
  refine ⟨?_, ?_, h'.generated.trans h.generated⟩
  · rw [h'.events, h.events, List.flatMap_append, List.append_assoc]
  · rw [h'.types, h.types, List.flatMap_append, List.append_assoc]

theorem types_addParts (m : Module) (output : Bit) (specs : List BufferSpec) :
    (addParts m output specs).cells.map (·.type) =
      m.cells.map (·.type) ++ specs.map (·.type) := by
  induction specs generalizing m output with
  | nil => exact (List.append_nil _).symm
  | cons spec rest ih =>
    obtain ⟨name, wireName, n, -, -, he⟩ := addBuffer_module m spec.type spec output
    rw [addParts, ih, he]
    simp

theorem insertBuffer_report (e : Scene) (s : Insertion) (buffer : BufferSpec) (w : Wire)
    (index : Nat) (bit net : Bit) : (insertBuffer e s buffer w index bit net).2.events =
      s.events ++ [.inserting (bufferAt e buffer bit).type s.module.name w.name index] ∧
    (insertBuffer e s buffer w index bit net).2.stats.generatedClocks = s.stats.generatedClocks :=
  ⟨rfl, rfl⟩

theorem insertPad_report (s : Insertion) (pad : BufferSpec) (w : Wire) (index : Nat) (net : Bit)
    (buffer : Option Placement) : (s.insertPad pad w index net buffer).2.events =
      s.events ++ [.inserting pad.type s.module.name w.name index] ∧
    (s.insertPad pad w index net buffer).2.stats.generatedClocks = s.stats.generatedClocks :=
  ⟨rfl, rfl⟩

theorem drive_report (e : Scene) (s : Insertion) (w : Wire) (index : Nat) (bit net : Bit) :
    (drive e s w index bit net).events = s.events ++
      (parts e s.module w bit).map (fun spec =>
        Event.inserting spec.type s.module.name w.name index) ∧
    (drive e s w index bit net).stats.generatedClocks = s.stats.generatedClocks := by
  cases hb : bufferFor? e s.module w with
  | none =>
    cases hp : padFor? e s.module w with
    | none => simp [drive, parts, hb, hp]
    | some pad => simp [drive, parts, hb, hp, insertPad_report]
  | some buffer =>
    obtain ⟨hevents, hstats⟩ := insertBuffer_report e s buffer w index bit net
    have hgrown : s.module.Grown (insertBuffer e s buffer w index bit net).2.module :=
      grown_addBuffer _ _ _ _
    unfold drive
    simp only [hb]
    generalize insertBuffer e s buffer w index bit net = r at hevents hstats hgrown ⊢
    obtain ⟨place, t⟩ := r
    dsimp only at hevents hstats hgrown ⊢
    rw [padFor?_grown hgrown]
    cases hp : padFor? e s.module w with
    | none => simp [parts, hb, hp, hevents, hstats]
    | some pad =>
      simp [parts, hb, hp, insertPad_report, hevents, hstats, hgrown.name]

theorem told_apply (h : m.Grown s.module) (a : Action) :
    Told e m a.drives?.toList s (a.apply e m s) := by
  cases a with
  | drive id i =>
    obtain ⟨hmodule, -⟩ := drive_spec e s (m.wire id) i (.wire id i) (e.aliases.root (.wire id i))
    obtain ⟨hevents, hgenerated⟩ :=
      drive_report e s (m.wire id) i (.wire id i) (e.aliases.root (.wire id i))
    rw [parts_grown h, h.name] at hevents
    rw [parts_grown h] at hmodule
    refine ⟨?_, ?_, hgenerated⟩
    · show (drive e s _ _ _ _).events = _
      rw [hevents]
      simp [Action.drives?, insertingAt, typesAt]
    · show (drive e s _ _ _ _).module.cells.map _ = _
      rw [hmodule, types_addParts]
      simp [Action.drives?, typesAt]
  | publishSink id i => exact Told.silent rfl rfl rfl
  | publishBuffered id i => exact Told.silent rfl rfl rfl
  | replace id =>
    obtain ⟨name, n, -, he⟩ := replaceInput_module e s id (m.wire id)
    show Told e m [] s (s.replaceInput e id (m.wire id))
    rw [he]
    exact Told.silent rfl rfl rfl

theorem told_foldl (h : m.Grown s.module) (as : List Action) :
    Told e m (as.filterMap Action.drives?) s (as.foldl (Action.apply e m) s) := by
  induction as generalizing s with
  | nil => exact Told.silent rfl rfl rfl
  | cons a rest ih =>
    have hfirst := told_apply (e := e) h a
    have hrest := ih (h.trans (Action.grown_apply e m s a))
    have hplaces : (a :: rest).filterMap Action.drives? =
        a.drives?.toList ++ rest.filterMap Action.drives? := by
      rw [List.filterMap_cons]
      cases a.drives? <;> rfl
    rw [hplaces, List.foldl_cons]
    exact hfirst.trans hrest

theorem told_inserted (e : Scene) (s : Insertion) :
    Told e s.module (drivenPlaces e s.module) s (s.inserted e) := by
  obtain ⟨tags, ht⟩ := publishOutputs_rest e (s.visitWires e)
  have h := told_foldl (e := e) (Module.Grown.refl s.module) (actions e s.module)
  rw [← visitWires_eq] at h
  unfold inserted
  rw [ht]
  exact ⟨h.events, h.types, h.generated⟩

/-- Handing over keeps the types of cells, and reports no more than the loads that it restores. -/
theorem complete_reports (e : Scene) (s : Insertion) :
    (∃ restored, (s.complete e).events = (s.inserted e).events ++ restored ∧
      ∀ event ∈ restored, ∃ cell port, event = .restoring cell port) ∧
    (s.complete e).module.cells.map (·.type) = (s.inserted e).module.cells.map (·.type) ∧
    (s.complete e).stats.generatedClocks = (s.inserted e).stats.generatedClocks := by
  refine ⟨?_, ?_, ?_⟩
  · rw [complete_eq]
    unfold restoreLoads
    split
    · exact ⟨[], (List.append_nil _).symm, fun event h => absurd h List.not_mem_nil⟩
    · refine ⟨_, rfl, fun event h => ?_⟩
      obtain ⟨c, -, h⟩ := List.mem_flatMap.mp h
      obtain ⟨port, -, rfl⟩ := List.mem_map.mp h
      exact ⟨c.name, port, rfl⟩
  · rw [complete_module]
    refine List.ext_getElem? fun k => ?_
    rw [List.getElem?_map, List.getElem?_mapIdx, List.getElem?_map, Option.map_map]
    rfl
  · rw [complete_eq]
    unfold restoreLoads
    split <;> rfl

/-- What a visit adds to the events, and the types of the cells that it adds. -/
theorem told_complete (e : Scene) (s : Insertion) :
    (∃ restored, (s.complete e).events = s.events ++
        (drivenPlaces e s.module).flatMap (insertingAt s.module (typesAt e s.module)) ++ restored ∧
      ∀ event ∈ restored, ∃ cell port, event = .restoring cell port) ∧
    (s.complete e).module.cells.map (·.type) = s.module.cells.map (·.type) ++
      (drivenPlaces e s.module).flatMap (typesAt e s.module) ∧
    (s.complete e).stats.generatedClocks = s.stats.generatedClocks := by
  obtain ⟨hevents, htypes, hgenerated⟩ := told_inserted e s
  obtain ⟨⟨restored, hall, hrestored⟩, htypes', hgenerated'⟩ := complete_reports e s
  exact ⟨⟨restored, by rw [hall, hevents], hrestored⟩, htypes'.trans htypes,
    hgenerated'.trans hgenerated⟩

end

end Insertion

/-! ## A run -/

/-- The reports of generated clocks and insertions in a module. -/
def about (name : String) (events : List Event) : List Event :=
  events.filter fun event => event.module? = some name

@[simp] theorem about_append (name : String) (events events' : List Event) :
    about name (events ++ events') = about name events ++ about name events' :=
  List.filter_append ..

theorem about_eq_self {name : String} {events : List Event}
    (h : ∀ event ∈ events, event.module? = some name) : about name events = events :=
  List.filter_eq_self.mpr fun event hevent => decide_eq_true (h event hevent)

theorem about_eq_nil {name : String} {events : List Event}
    (h : ∀ event ∈ events, event.module? ≠ some name) : about name events = [] :=
  List.filter_eq_nil_iff.mpr fun event hevent => by simpa using h event hevent

/-- What is reported of a module. -/
def reportsOf (e : Scene) (m : Module) : List Event :=
  generatedEvents m e.generated ++ (drivenPlaces e m).flatMap (insertingAt m (typesAt e m))

theorem module?_of_mem_reportsOf {e : Scene} {m : Module} {event : Event}
    (h : event ∈ reportsOf e m) : event.module? = some m.name := by
  unfold reportsOf at h
  rcases List.mem_append.mp h with h | h
  · obtain ⟨b, -, rfl⟩ := List.mem_map.mp h
    rfl
  · obtain ⟨q, -, h⟩ := List.mem_flatMap.mp h
    obtain ⟨type, -, rfl⟩ := List.mem_map.mp h
    rfl

theorem countP_reportsOf (e : Scene) (m : Module) :
    (reportsOf e m).countP Event.isGeneratedClock = e.generated.length := by
  have hclocks : (generatedEvents m e.generated).countP Event.isGeneratedClock =
      e.generated.length := by
    unfold generatedEvents
    rw [List.countP_map]
    exact List.countP_eq_length.mpr fun _ _ => rfl
  have hcells : ((drivenPlaces e m).flatMap (insertingAt m (typesAt e m))).countP
      Event.isGeneratedClock = 0 := by
    refine List.countP_eq_zero.mpr fun event h => ?_
    obtain ⟨q, -, h⟩ := List.mem_flatMap.mp h
    obtain ⟨type, -, rfl⟩ := List.mem_map.mp h
    exact Bool.false_ne_true
  unfold reportsOf
  rw [List.countP_append, hclocks, hcells, Nat.add_zero]

section
variable {o : Options} {d : Design} {p : Progress} {m : Module}

theorem exit_events (o : Options) (d : Design) (p : Progress) (m : Module) :
    ∃ first rest, (exitIn o d p m).events =
      p.events ++ (first :: reportsOf (sceneIn o d p m) m ++ rest) ∧
      (∀ event ∈ first :: rest, event.module? = none) ∧
      ∀ event ∈ first :: rest, event.isGeneratedClock = false := by
  obtain ⟨⟨restored, hevents, hrestored⟩, -⟩ :=
    Insertion.told_complete (sceneIn o d p m) (entryIn o d p m)
  refine ⟨.classified (sceneIn o d p m).clocks.sinks.length
    (sceneIn o d p m).clocks.buffered.length, restored, hevents.trans ?_, ?_, ?_⟩
  · unfold entryIn Insertion.start reportsOf
    simp only [List.append_assoc, List.cons_append, List.nil_append]
  · intro event h
    rcases List.mem_cons.mp h with rfl | h
    · rfl
    · obtain ⟨cell, port, rfl⟩ := hrestored event h
      rfl
  · intro event h
    rcases List.mem_cons.mp h with rfl | h
    · rfl
    · obtain ⟨cell, port, rfl⟩ := hrestored event h
      rfl

theorem about_exit (o : Options) (d : Design) (p : Progress) (m : Module) (name : String) :
    about name (exitIn o d p m).events = about name p.events ++
      if m.name = name then reportsOf (sceneIn o d p m) m else [] := by
  obtain ⟨first, rest, hevents, hnone, -⟩ := exit_events o d p m
  have hrest : about name rest = [] := about_eq_nil fun event h => by
    rw [hnone event (List.mem_cons_of_mem _ h)]
    exact (Option.some_ne_none name).symm
  have hfirst : about name [first] = [] := about_eq_nil fun event h => by
    rw [List.mem_singleton.mp h, hnone first List.mem_cons_self]
    exact (Option.some_ne_none name).symm
  have hown : about name (reportsOf (sceneIn o d p m) m) =
      if m.name = name then reportsOf (sceneIn o d p m) m else [] := by
    split
    · rename_i he
      exact about_eq_self fun event h => by rw [module?_of_mem_reportsOf h, he]
    · rename_i hne
      exact about_eq_nil fun event h => by
        rw [module?_of_mem_reportsOf h]
        exact fun he => hne (Option.some.inj he)
  rw [hevents, ← List.singleton_append]
  simp only [about_append, hfirst, hrest, hown, List.nil_append, List.append_nil]

theorem about_visit {name other : String} (hne : other ≠ name) :
    about other (visitModule o (buffersInputs o d) p name).events = about other p.events := by
  cases hm : p.design.find? name with
  | none =>
    unfold visitModule
    rw [hm]
  | some m =>
    have hname := Design.name_of_find? hm
    subst hname
    cases hb : m.isBlackbox with
    | true => rw [visit_blackbox hm hb]
    | false =>
      rw [visit_module hm hb, about_exit, if_neg (Ne.symm hne), List.append_nil]

theorem about_unvisited {names : List String} {name : String} (h : name ∉ names) :
    about name (progressAfter o d names).events = [] := by
  induction names using List.reverseRecOn with
  | nil => rfl
  | append_singleton names last ih =>
    rw [List.mem_append, List.mem_singleton, not_or] at h
    rw [progressAfter_append, about_visit h.2, ih h.1]

theorem about_visited (hd : d.NamesUnique) {before after : List String} (hm : m ∈ d.modules)
    (hb : m.isBlackbox = false) (hn : (before ++ m.name :: after).Nodup) :
    about m.name (progressAfter o d (before ++ m.name :: after)).events =
      reportsOf (sceneIn o d (progressAfter o d before) m) m := by
  induction after using List.reverseRecOn with
  | nil =>
    obtain ⟨hn', -, hlast⟩ := List.nodup_append.mp hn
    have hout : m.name ∉ before := fun hmem =>
      hlast m.name hmem m.name (List.mem_singleton.mpr rfl) rfl
    have hfind : (progressAfter o d before).design.find? m.name = some m :=
      (find?_unvisited hd hn' hout).trans (Design.find?_name hd.names hm)
    rw [progressAfter_append, visit_module hfind hb, about_exit, if_pos rfl,
      about_unvisited hout, List.nil_append]
  | append_singleton after last ih =>
    rw [← List.cons_append, ← List.append_assoc] at hn ⊢
    obtain ⟨hn', -, hlast⟩ := List.nodup_append.mp hn
    have hne : m.name ≠ last := hlast m.name
      (List.mem_append_right _ List.mem_cons_self) last (List.mem_singleton.mpr rfl)
    rw [progressAfter_append, about_visit hne]
    exact ih hn'

theorem run_events (h : run o d = .ok p) :
    p.events = (progressAfter o d (moduleOrder d o.selection)).events ++ [.finished p.stats] := by
  unfold run at h
  split at h
  · cases h
  · cases h
    rfl

/-- What a run reports of a module that it visits. -/
theorem reports_run (hd : d.NamesUnique) (h : run o d = .ok p) (hv : Visited o d m) :
    about m.name p.events = reportsOf (sceneOf o d m) m := by
  obtain ⟨hm, ho, hb⟩ := hv
  obtain ⟨after, horder⟩ := order_eq ho
  have hn := nodup_moduleOrder d o.selection
  rw [horder] at hn
  rw [run_events h, horder, about_append, about_visited hd hm hb hn]
  exact List.append_nil _

theorem types_run (hd : d.NamesUnique) (h : run o d = .ok p) (hv : Visited o d m) :
    ∃ m', p.design.find? m.name = some m' ∧ m'.cells.map (·.type) =
      m.cells.map (·.type) ++ (drivenPlaces (sceneOf o d m) m).flatMap
        (typesAt (sceneOf o d m) m) := by
  obtain ⟨-, htypes, -⟩ := Insertion.told_complete (sceneOf o d m)
    (entryIn o d (progressBefore o d m.name) m)
  exact ⟨_, find?_run_visited hd h hv, htypes⟩

theorem countP_exit (h : p.stats.generatedClocks = p.events.countP Event.isGeneratedClock) :
    (exitIn o d p m).stats.generatedClocks =
      (exitIn o d p m).events.countP Event.isGeneratedClock := by
  obtain ⟨first, rest, hevents, -, hother⟩ := exit_events o d p m
  obtain ⟨-, -, hstats⟩ := Insertion.told_complete (sceneIn o d p m) (entryIn o d p m)
  have hcount : (exitIn o d p m).stats.generatedClocks =
      p.stats.generatedClocks + (sceneIn o d p m).generated.length := hstats
  have hfirst : first.isGeneratedClock = false := hother first List.mem_cons_self
  have hrest : rest.countP Event.isGeneratedClock = 0 :=
    List.countP_eq_zero.mpr fun event hmem => by simp [hother event (List.mem_cons_of_mem _ hmem)]
  rw [hcount, h, hevents, List.countP_append, List.cons_append, List.countP_cons, hfirst,
    List.countP_append, countP_reportsOf, hrest]
  rfl

/-- The generated clocks that are reported in the course of a run are counted. -/
theorem countP_progressAfter (names : List String) :
    (progressAfter o d names).stats.generatedClocks =
      (progressAfter o d names).events.countP Event.isGeneratedClock := by
  induction names using List.reverseRecOn with
  | nil => rfl
  | append_singleton names last ih =>
    rw [progressAfter_append]
    generalize progressAfter o d names = p at ih ⊢
    cases hm : p.design.find? last with
    | none =>
      unfold visitModule
      rw [hm]
      exact ih
    | some m =>
      have hname := Design.name_of_find? hm
      subst hname
      cases hb : m.isBlackbox with
      | true =>
        rw [visit_blackbox hm hb]
        exact ih
      | false =>
        rw [visit_module hm hb]
        exact countP_exit ih

theorem generatedClocks_run (h : run o d = .ok p) :
    p.stats.generatedClocks = p.events.countP Event.isGeneratedClock := by
  obtain ⟨-, -, -, hstats⟩ := run_ok h
  rw [run_events h, List.countP_append, hstats]
  exact countP_progressAfter _

end

end ClockNet.Buffering

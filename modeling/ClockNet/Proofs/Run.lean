import ClockNet.Proofs.Order
import ClockNet.Proofs.Outcome
import Mathlib.Data.List.Induction
import Mathlib.Data.List.TakeWhile

/-! # From modules to designs

A run is the visits of its modules in order (`progressAfter`), and each visit touches one module
and the tags of one type. So a module is found as it was until its visit and as the visit left
it from then on (`find?_run`), and the tags of a type are those of its visit, or, before it,
those that the run starts with. Where port lists are in order no signature ever changes. -/

namespace ClockNet.Buffering

/-! ## The states between visits -/

def startOf (o : Options) (d : Design) : Progress :=
  { design := d, tags := initialTags o d, events := [.order (moduleOrder d o.selection)] }

/-- The state after visits. -/
def progressAfter (o : Options) (d : Design) (names : List String) : Progress :=
  names.foldl (visitModule o (buffersInputs o d)) (startOf o d)

def visitedBefore (o : Options) (d : Design) (name : String) : List String :=
  (moduleOrder d o.selection).takeWhile (· ≠ name)

def progressBefore (o : Options) (d : Design) (name : String) : Progress :=
  progressAfter o d (visitedBefore o d name)

/-- What the cells of a module show in a state of the run. -/
def surveyIn (p : Progress) (m : Module) : Survey :=
  Survey.ofModule p.tags (.ofConnections m.connections) m

/-- What is known of a module that is visited in a state of the run. -/
def sceneIn (o : Options) (d : Design) (p : Progress) (m : Module) : Scene :=
  Scene.ofModule o (buffersInputs o d) (.ofDesign p.design) (surveyIn p m)
    (.ofConnections m.connections) m

/-- What is known of a module when it is visited. -/
def sceneOf (o : Options) (d : Design) (m : Module) : Scene :=
  sceneIn o d (progressBefore o d m.name) m

/-- The state in which the insertion into a module starts. -/
def entryIn (o : Options) (d : Design) (p : Progress) (m : Module) : Insertion :=
  Insertion.start p (surveyIn p m) (sceneIn o d p m) m

/-- The state in which the insertion into a module ends. -/
def exitIn (o : Options) (d : Design) (p : Progress) (m : Module) : Insertion :=
  (entryIn o d p m).complete (sceneIn o d p m)

/-- The module has contents and the run gets to it. -/
def Visited (o : Options) (d : Design) (m : Module) : Prop :=
  m ∈ d.modules ∧ m.name ∈ moduleOrder d o.selection ∧ m.isBlackbox = false

section
variable {o : Options} {d : Design} {p : Progress} {m : Module}

theorem fresh_entry (hm : m.NamesUnique) : (entryIn o d p m).Fresh := ⟨hm, rfl, rfl⟩

theorem run_ok {p : Progress} (h : run o d = .ok p) :
    (o.buffer.isSome ∨ o.pad.isSome) ∧
    p.design = (progressAfter o d (moduleOrder d o.selection)).design ∧
    p.tags = (progressAfter o d (moduleOrder d o.selection)).tags ∧
    p.stats = (progressAfter o d (moduleOrder d o.selection)).stats := by
  unfold run at h
  split at h
  · cases h
  · rename_i hc
    cases h
    refine ⟨?_, rfl, rfl, rfl⟩
    cases hb : o.buffer with
    | some => exact .inl rfl
    | none =>
      cases hp : o.pad with
      | some => exact .inr rfl
      | none => simp [hb, hp] at hc

/-- With a buffer or a pad, every design is dealt with. -/
theorem run_total (h : o.buffer.isSome ∨ o.pad.isSome) : ∃ p, run o d = .ok p := by
  unfold run
  rw [if_neg]
  · exact ⟨_, rfl⟩
  · cases hb : o.buffer with
    | some => simp
    | none =>
      cases hp : o.pad with
      | some => simp
      | none => simp [hb, hp] at h

/-! ## One visit -/

theorem visit_blackbox (hm : p.design.find? m.name = some m) (hb : m.isBlackbox = true) :
    visitModule o (buffersInputs o d) p m.name = { p with tags := p.tags.addBlackbox m } := by
  unfold visitModule
  rw [hm]
  simp only [hb, if_true]

theorem visit_module (hm : p.design.find? m.name = some m) (hb : m.isBlackbox = false) :
    visitModule o (buffersInputs o d) p m.name =
      { design := p.design.replace (exitIn o d p m).module, tags := (exitIn o d p m).tags
        stats := (exitIn o d p m).stats, events := (exitIn o d p m).events } := by
  unfold visitModule
  rw [hm]
  simp only [hb, Bool.false_eq_true, if_false]
  rfl

theorem exit_name (hm : m.NamesUnique) : (exitIn o d p m).module.name = m.name :=
  Insertion.complete_name (fresh_entry hm)

theorem find?_visit {name other : String} (hu : ∀ m, p.design.find? name = some m → m.NamesUnique)
    (hne : other ≠ name) :
    (visitModule o (buffersInputs o d) p name).design.find? other = p.design.find? other := by
  cases hm : p.design.find? name with
  | none =>
    unfold visitModule
    rw [hm]
  | some m =>
    have hname := Design.name_of_find? hm
    subst hname
    cases hb : m.isBlackbox with
    | true => rw [visit_blackbox hm hb]
    | false =>
      have hn : (exitIn o d p m).module.name = m.name := exit_name (hu m hm)
      rw [visit_module hm hb]
      dsimp only
      rw [Design.find?_replace (hn ▸ hm), if_neg (hn ▸ hne)]

/-! ## Modules before and after their visit -/

theorem progressAfter_append (names : List String) (name : String) :
    progressAfter o d (names ++ [name]) =
      visitModule o (buffersInputs o d) (progressAfter o d names) name := by
  unfold progressAfter
  rw [List.foldl_append]
  rfl

theorem find?_unvisited (hd : d.NamesUnique) {names : List String} (hn : names.Nodup)
    {name : String} (h : name ∉ names) :
    (progressAfter o d names).design.find? name = d.find? name := by
  induction names using List.reverseRecOn generalizing name with
  | nil => rfl
  | append_singleton names last ih =>
    rw [List.mem_append, List.mem_singleton, not_or] at h
    obtain ⟨hn', -, hlast⟩ := List.nodup_append.mp hn
    have hout : last ∉ names := fun hmem => hlast last hmem last (List.mem_singleton.mpr rfl) rfl
    rw [progressAfter_append, find?_visit ?_ h.2, ih hn' h.1]
    intro m hm
    rw [ih hn' hout] at hm
    exact hd.modules m (Design.mem_of_find? hm)

theorem find?_visited (hd : d.NamesUnique) {before after : List String} {m : Module}
    (hm : m ∈ d.modules) (hn : (before ++ m.name :: after).Nodup) :
    (progressAfter o d (before ++ m.name :: after)).design.find? m.name =
      some (if m.isBlackbox then m
        else (exitIn o d (progressAfter o d before) m).module) := by
  induction after using List.reverseRecOn with
  | nil =>
    obtain ⟨hn', -, hlast⟩ := List.nodup_append.mp hn
    have hout : m.name ∉ before := fun hmem =>
      hlast m.name hmem m.name (List.mem_singleton.mpr rfl) rfl
    have hfind : (progressAfter o d before).design.find? m.name = some m :=
      (find?_unvisited hd hn' hout).trans (Design.find?_name hd.names hm)
    rw [progressAfter_append]
    cases hb : m.isBlackbox with
    | true =>
      rw [visit_blackbox hfind hb]
      exact hfind
    | false =>
      have hname : (exitIn o d (progressAfter o d before) m).module.name = m.name :=
        exit_name (hd.modules m hm)
      rw [visit_module hfind hb]
      dsimp only
      rw [Design.find?_replace (hname ▸ hfind), if_pos hname.symm]
      rfl
  | append_singleton after last ih =>
    rw [← List.cons_append, ← List.append_assoc] at hn ⊢
    obtain ⟨hn', -, hlast⟩ := List.nodup_append.mp hn
    have hne : m.name ≠ last := hlast m.name
      (List.mem_append_right _ List.mem_cons_self) last (List.mem_singleton.mpr rfl)
    have hout : last ∉ before ++ m.name :: after := fun hmem =>
      hlast last hmem last (List.mem_singleton.mpr rfl) rfl
    rw [progressAfter_append, find?_visit ?_ hne]
    · exact ih hn'
    · intro m' hm'
      rw [find?_unvisited hd hn' hout] at hm'
      exact hd.modules m' (Design.mem_of_find? hm')

/-- How a module is found in the course of a run. -/
theorem find?_progressAfter (hd : d.NamesUnique) {names : List String} (hn : names.Nodup)
    (hm : m ∈ d.modules) :
    (m.name ∉ names ∧ (progressAfter o d names).design.find? m.name = some m) ∨
    (∃ before after, names = before ++ m.name :: after ∧
      (progressAfter o d names).design.find? m.name = some (if m.isBlackbox then m
        else (exitIn o d (progressAfter o d before) m).module)) := by
  by_cases hmem : m.name ∈ names
  · obtain ⟨before, after, rfl, -⟩ := List.eq_append_cons_of_mem hmem
    exact .inr ⟨before, after, rfl, find?_visited hd hm hn⟩
  · refine .inl ⟨hmem, ?_⟩
    rw [find?_unvisited hd hn hmem, Design.find?_name hd.names hm]

/-- Where the order is cut at a module, the part before is what is visited before it. -/
theorem visitedBefore_eq {before after : List String} {name : String}
    (h : moduleOrder d o.selection = before ++ name :: after) :
    visitedBefore o d name = before := by
  have hn := nodup_moduleOrder d o.selection
  rw [h] at hn
  have hne : ∀ a ∈ before, (decide (a ≠ name)) = true := fun a ha => decide_eq_true
    ((List.nodup_append.mp hn).2.2 a ha name List.mem_cons_self)
  unfold visitedBefore
  rw [h, List.takeWhile_append_of_pos hne, List.takeWhile_cons_of_neg (by simp),
    List.append_nil]

theorem order_eq {name : String} (h : name ∈ moduleOrder d o.selection) :
    ∃ after, moduleOrder d o.selection = visitedBefore o d name ++ name :: after := by
  obtain ⟨before, after, he, -⟩ := List.eq_append_cons_of_mem h
  exact ⟨after, by rw [visitedBefore_eq he]; exact he⟩

theorem nodup_visitedBefore (o : Options) (d : Design) (name : String) :
    (visitedBefore o d name).Nodup :=
  (nodup_moduleOrder d o.selection).sublist (List.takeWhile_sublist _)

theorem not_mem_visitedBefore (o : Options) (d : Design) (name : String) :
    name ∉ visitedBefore o d name := by
  intro hmem
  have hne := List.mem_takeWhile_imp hmem
  simp at hne

theorem found_visitedBefore {name other : String} (h : other ∈ visitedBefore o d name) :
    ∃ m, d.find? other = some m :=
  found_moduleOrder ((List.takeWhile_sublist _).subset h)

theorem find?_progressBefore_none (hd : d.NamesUnique) {name other : String}
    (h : d.find? other = none) : (progressBefore o d name).design.find? other = none := by
  refine (find?_unvisited hd (nodup_visitedBefore o d name) fun hmem => ?_).trans h
  obtain ⟨m, hm⟩ := found_visitedBefore hmem
  rw [h] at hm
  cases hm

theorem find?_run (hd : d.NamesUnique) (h : run o d = .ok p) (hm : m ∈ d.modules) :
    (Visited o d m ∧ p.design.find? m.name =
      some (exitIn o d (progressBefore o d m.name) m).module) ∨
    (¬ Visited o d m ∧ p.design.find? m.name = some m) := by
  obtain ⟨-, hdesign, -⟩ := run_ok h
  rw [hdesign]
  by_cases ho : m.name ∈ moduleOrder d o.selection
  · obtain ⟨after, he⟩ := order_eq ho
    have hn := nodup_moduleOrder d o.selection
    rw [he] at hn ⊢
    rw [find?_visited hd hm hn]
    cases hb : m.isBlackbox with
    | true => exact .inr ⟨fun hv => absurd (hv.2.2.symm.trans hb) Bool.false_ne_true, rfl⟩
    | false => exact .inl ⟨⟨hm, ho, hb⟩, rfl⟩
  · rw [find?_unvisited hd (nodup_moduleOrder d o.selection) ho,
      Design.find?_name hd.names hm]
    exact .inr ⟨fun hv => ho hv.2.1, rfl⟩

theorem find?_run_visited (hd : d.NamesUnique) (h : run o d = .ok p) (hv : Visited o d m) :
    p.design.find? m.name = some (exitIn o d (progressBefore o d m.name) m).module := by
  rcases find?_run hd h hv.1 with ⟨-, hf⟩ | ⟨hnot, -⟩
  · exact hf
  · exact absurd hv hnot

/-! ## Signatures -/

/-- An output that a module of the design declares is declared all through the run. -/
theorem declares_progressAfter (hd : d.NamesUnique) {names : List String} (hn : names.Nodup)
    {port : String} (h : Insertion.Declares m port .output) (hm : m ∈ d.modules) :
    ∃ m', (progressAfter o d names).design.find? m.name = some m' ∧
      Insertion.Declares m' port .output := by
  rcases find?_progressAfter (o := o) hd hn hm with ⟨-, hf⟩ | ⟨before, after, rfl, hf⟩
  · exact ⟨m, hf, h⟩
  · refine ⟨_, hf, ?_⟩
    split
    · exact h
    · exact Insertion.declares_complete (fresh_entry (hd.modules m hm)) h

theorem names_progressAfter (o : Options) (d : Design) (names : List String) :
    (progressAfter o d names).design.modules.map (·.name) = d.modules.map (·.name) := by
  induction names using List.reverseRecOn with
  | nil => rfl
  | append_singleton names last ih =>
    rw [progressAfter_append, ← ih]
    unfold visitModule
    split
    · rfl
    · split
      · rfl
      · exact Design.replace_names _ _

theorem ofDesign_replace {d : Design} {m : Module} (h : ∀ old ∈ d.modules, old.name = m.name →
    Signatures.ofModule m = Signatures.ofModule old) :
    Signatures.ofDesign (d.replace m) = Signatures.ofDesign d := by
  unfold Signatures.ofDesign Design.replace
  rw [List.map_map]
  congr 1
  refine List.map_congr_left ?_
  intro old hold
  rw [Function.comp_apply]
  split
  · rename_i he
    rw [he, h old hold he]
  · rfl

theorem mem_replace {d : Design} {m x : Module} (h : x ∈ (d.replace m).modules) :
    x ∈ d.modules ∨ x = m := by
  obtain ⟨old, hold, rfl⟩ := List.mem_map.mp h
  split
  · exact .inr rfl
  · exact .inl hold

/-- A visit keeps names unique, port lists in order and all signatures. -/
theorem ofDesign_visit (hd : p.design.NamesUnique) (hp : p.design.PortsNumbered) (name : String) :
    (visitModule o (buffersInputs o d) p name).design.NamesUnique ∧
    (visitModule o (buffersInputs o d) p name).design.PortsNumbered ∧
    Signatures.ofDesign (visitModule o (buffersInputs o d) p name).design =
      .ofDesign p.design := by
  cases hm : p.design.find? name with
  | none =>
    have he : visitModule o (buffersInputs o d) p name = p := by
      unfold visitModule
      rw [hm]
    rw [he]
    exact ⟨hd, hp, rfl⟩
  | some m =>
    have hname := Design.name_of_find? hm
    have hmem := Design.mem_of_find? hm
    subst hname
    cases hb : m.isBlackbox with
    | true =>
      rw [visit_blackbox hm hb]
      exact ⟨hd, hp, rfl⟩
    | false =>
      have hs : (entryIn o d p m).Fresh := fresh_entry (hd.modules m hmem)
      have hexit : (exitIn o d p m).module.name = m.name := exit_name (hd.modules m hmem)
      rw [visit_module hm hb]
      refine ⟨⟨?_, ?_⟩, ?_, ?_⟩
      · rw [Design.replace_names]
        exact hd.names
      · intro x hx
        rcases mem_replace hx with hx | rfl
        · exact hd.modules x hx
        · exact Insertion.namesUnique_complete hs
      · intro x hx
        rcases mem_replace hx with hx | rfl
        · exact hp x hx
        · exact Insertion.portsNumbered_complete
      · refine ofDesign_replace ?_
        intro old hold he
        have hfind := Design.find?_name hd.names hold
        rw [he, hexit, hm] at hfind
        rw [← Option.some.inj hfind]
        exact Insertion.ofModule_complete hs (hp m hmem)

/-- Names stay unique and port lists stay in order, and so no signature ever changes. -/
theorem ofDesign_progressAfter (hd : d.NamesUnique) (hp : d.PortsNumbered)
    (names : List String) :
    (progressAfter o d names).design.NamesUnique ∧
    (progressAfter o d names).design.PortsNumbered ∧
    Signatures.ofDesign (progressAfter o d names).design = Signatures.ofDesign d := by
  induction names using List.reverseRecOn with
  | nil => exact ⟨hd, hp, rfl⟩
  | append_singleton names last ih =>
    obtain ⟨hnames, hports, hsignatures⟩ := ih
    obtain ⟨hnames', hports', hkept⟩ :=
      ofDesign_visit (o := o) (d := d) hnames hports last
    rw [progressAfter_append]
    exact ⟨hnames', hports', hkept.trans hsignatures⟩

end

end ClockNet.Buffering

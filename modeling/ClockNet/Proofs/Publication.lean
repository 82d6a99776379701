import ClockNet.Proofs.Run

/-! # What visits publish

The tags of a type are added by the visit of the module of its name, and by no other
(`mem_sinks_progressAfter` and its siblings). So the state in which a module is visited knows of
its instances what their own visits have published, and nothing is ever taken back. -/

namespace ClockNet.Buffering

/-- The bit that stands for the net of a bit of a module. -/
def netOf (m : Module) (b : Bit) : Bit := (AliasMap.ofConnections m.connections).root b

/-- The state before the handover in a module. -/
def insertedOf (o : Options) (d : Design) (m : Module) : Insertion :=
  (entryIn o d (progressBefore o d m.name) m).inserted (sceneOf o d m)

def exitOf (o : Options) (d : Design) (m : Module) : Insertion :=
  exitIn o d (progressBefore o d m.name) m

/-- The visit of a module tags a bit of its ports as a sink. -/
def TagsSink (o : Options) (d : Design) (m : Module) (q : PortBit) : Prop :=
  if m.isBlackbox then Tags.Marked m Attribute.sink q
  else ∃ id i, .publishSink id i ∈ actions (sceneOf o d m) m ∧
    q = ⟨m.name, (m.wire id).name, i⟩

/-- The visit of a module tags a bit of its ports as buffered. -/
def TagsBuffered (o : Options) (d : Design) (m : Module) (q : PortBit) : Prop :=
  if m.isBlackbox then Tags.Marked m Attribute.driver q
  else ∃ id i, (.publishBuffered id i ∈ actions (sceneOf o d m) m ∨
      Insertion.Retagged (sceneOf o d m) m (insertedOf o d m).placed id i) ∧
    q = ⟨m.name, (m.wire id).name, i⟩

section
variable {o : Options} {d : Design} {m : Module} {names : List String} {q : PortBit}

theorem TagsSink.type_eq (h : TagsSink o d m q) : q.type = m.name := by
  unfold TagsSink at h
  split at h
  · obtain ⟨id, -, -, i, -, rfl⟩ := h
    rfl
  · obtain ⟨id, i, -, rfl⟩ := h
    rfl

theorem TagsBuffered.type_eq (h : TagsBuffered o d m q) : q.type = m.name := by
  unfold TagsBuffered at h
  split at h
  · obtain ⟨id, -, -, i, -, rfl⟩ := h
    rfl
  · obtain ⟨id, i, -, rfl⟩ := h
    rfl

/-! ## One visit in the order -/

/-- What holds at the start, and after each visit if it held before, holds along the order. -/
theorem order_induction {P : List String → Prop} (hnil : P [])
    (hvisit : ∀ m, d.find? m.name = some m → m.name ∈ moduleOrder d o.selection →
      P (visitedBefore o d m.name) → P (visitedBefore o d m.name ++ [m.name]))
    (hn : names <+: moduleOrder d o.selection) : P names := by
  induction names using List.reverseRecOn with
  | nil => exact hnil
  | append_singleton names last ih =>
    obtain ⟨rest, he⟩ := hn
    have hcut : moduleOrder d o.selection = names ++ last :: rest := by
      rw [← he]
      simp
    have hbefore : visitedBefore o d last = names := visitedBefore_eq hcut
    have hlast : last ∈ moduleOrder d o.selection := by
      rw [← he]
      simp
    obtain ⟨m, hm⟩ := found_moduleOrder hlast
    have hname := Design.name_of_find? hm
    subst hname
    rw [← hbefore]
    refine hvisit m hm hlast ?_
    rw [hbefore]
    exact ih ⟨m.name :: rest, by rw [← he]; simp⟩

theorem visitedBefore_isPrefix (o : Options) (d : Design) (name : String) :
    visitedBefore o d name <+: moduleOrder d o.selection := List.takeWhile_prefix _

theorem progressAfter_visit (hd : d.NamesUnique) (hm : d.find? m.name = some m) :
    progressAfter o d (visitedBefore o d m.name ++ [m.name]) =
      if m.isBlackbox then { progressBefore o d m.name with
        tags := (progressBefore o d m.name).tags.addBlackbox m }
      else { design := (progressBefore o d m.name).design.replace (exitOf o d m).module
             tags := (exitOf o d m).tags, stats := (exitOf o d m).stats
             events := (exitOf o d m).events } := by
  have hout := not_mem_visitedBefore o d m.name
  have hfind : (progressBefore o d m.name).design.find? m.name = some m :=
    (find?_unvisited hd (nodup_visitedBefore o d m.name) hout).trans hm
  rw [progressAfter_append]
  cases hb : m.isBlackbox with
  | true =>
    rw [if_pos rfl]
    exact visit_blackbox hfind hb
  | false =>
    rw [if_neg Bool.false_ne_true]
    exact visit_module hfind hb

theorem entry_tags (o : Options) (d : Design) (p : Progress) (m : Module) :
    (entryIn o d p m).tags.sinks = p.tags.sinks ∧
    (entryIn o d p m).tags.buffered = p.tags.buffered ∧
    (entryIn o d p m).tags.inverters = p.tags.inverters ∧
    ∀ type, type ∈ (entryIn o d p m).tags.clocked ↔
      type ∈ p.tags.clocked ∨ type ∈ (surveyIn p m).clocked := by
  obtain ⟨clocked, he, hc⟩ := Tags.foldl_addClocked (surveyIn p m).clocked p.tags
  have ht : (entryIn o d p m).tags = { p.tags with clocked } := he
  rw [ht]
  exact ⟨rfl, rfl, rfl, hc⟩

theorem fresh_entryOf (hd : d.NamesUnique) (hm : m ∈ d.modules) (p : Progress) :
    (entryIn o d p m).Fresh := fresh_entry (hd.modules m hm)

/-! ## All visits -/

/-- A new visit is one more place for tags to come from. -/
theorem exists_visited_append {P : Module → Prop} (hd : d.NamesUnique)
    (hm : d.find? m.name = some m) : (∃ x ∈ d.modules, x.name ∈ names ++ [m.name] ∧ P x) ↔
      (∃ x ∈ d.modules, x.name ∈ names ∧ P x) ∨ P m := by
  constructor
  · intro h
    obtain ⟨x, hx, hn, hp⟩ := h
    rcases List.mem_append.mp hn with hn | hn
    · exact .inl ⟨x, hx, hn, hp⟩
    · have hfind := Design.find?_name hd.names hx
      rw [List.mem_singleton.mp hn, hm] at hfind
      rw [← Option.some.inj hfind] at hp
      exact .inr hp
  · intro h
    rcases h with ⟨x, hx, hn, hp⟩ | hp
    · exact ⟨x, hx, List.mem_append_left _ hn, hp⟩
    · exact ⟨m, Design.mem_of_find? hm, List.mem_append_right _ (List.mem_singleton.mpr rfl), hp⟩

/-- The sinks that are known after visits are those that the visits have tagged. -/
theorem mem_sinks_progressAfter (hd : d.NamesUnique)
    (hn : names <+: moduleOrder d o.selection) : q ∈ (progressAfter o d names).tags.sinks ↔
      ∃ m ∈ d.modules, m.name ∈ names ∧ TagsSink o d m q := by
  refine order_induction (P := fun names => q ∈ (progressAfter o d names).tags.sinks ↔
    ∃ m ∈ d.modules, m.name ∈ names ∧ TagsSink o d m q) ?_ ?_ hn
  · have hnone : (progressAfter o d []).tags.sinks = [] := by
      unfold progressAfter startOf initialTags Tags.addBufferType Tags.addBuffered
      dsimp only [List.foldl_nil]
      split <;> split <;> (try split) <;> (try split) <;> rfl
    simp [hnone]
  · intro m hm _ ih
    rw [exists_visited_append hd hm, ← ih, progressAfter_visit hd hm]
    unfold TagsSink
    cases hb : m.isBlackbox with
    | true =>
      rw [if_pos rfl]
      simp only [if_true]
      exact Tags.mem_sinks_addBlackbox
    | false =>
      have he := (entry_tags o d (progressBefore o d m.name) m).1
      simp only [Bool.false_eq_true, if_false]
      unfold exitOf exitIn
      rw [Insertion.complete_tags, Insertion.mem_sinks_inserted, he]
      rfl

/-- The bits that count as buffered after visits are those of the configured cell types and
those that the visits have tagged. -/
theorem mem_buffered_progressAfter (hd : d.NamesUnique)
    (hn : names <+: moduleOrder d o.selection) : q ∈ (progressAfter o d names).tags.buffered ↔
      q ∈ (initialTags o d).buffered ∨
        ∃ m ∈ d.modules, m.name ∈ names ∧ TagsBuffered o d m q := by
  refine order_induction (P := fun names => q ∈ (progressAfter o d names).tags.buffered ↔
    q ∈ (initialTags o d).buffered ∨
      ∃ m ∈ d.modules, m.name ∈ names ∧ TagsBuffered o d m q) ?_ ?_ hn
  · simp [progressAfter, startOf]
  · intro m hm _ ih
    rw [exists_visited_append hd hm, ← or_assoc, ← ih, progressAfter_visit hd hm]
    unfold TagsBuffered
    cases hb : m.isBlackbox with
    | true =>
      rw [if_pos rfl]
      simp only [if_true]
      exact Tags.mem_buffered_addBlackbox
    | false =>
      have he := (entry_tags o d (progressBefore o d m.name) m).2.1
      simp only [Bool.false_eq_true, if_false]
      unfold exitOf exitIn
      rw [Insertion.complete_tags, Insertion.mem_buffered_inserted
        (fresh_entryOf hd (Design.mem_of_find? hm) _), he]
      rfl

/-- The inverters that are known after visits are those of the black boxes among them. -/
theorem inverterInput?_progressAfter (hd : d.NamesUnique)
    (hn : names <+: moduleOrder d o.selection) (q : PortBit) :
    (progressAfter o d names).tags.inverterInput? q = if q.type ∈ names then
      ((d.find? q.type).filter Module.isBlackbox).bind (Tags.ownInverter? · q) else none := by
  refine order_induction (P := fun names => (progressAfter o d names).tags.inverterInput? q =
    if q.type ∈ names then ((d.find? q.type).filter Module.isBlackbox).bind
      (Tags.ownInverter? · q) else none) ?_ ?_ hn
  · have hnone : (progressAfter o d []).tags.inverters = [] := by
      unfold progressAfter startOf initialTags Tags.addBufferType Tags.addBuffered
      dsimp only [List.foldl_nil]
      split <;> split <;> (try split) <;> (try split) <;> rfl
    unfold Tags.inverterInput?
    rw [hnone]
    rfl
  · intro m hm _ ih
    have hout := not_mem_visitedBefore o d m.name
    have hmem : q.type ∈ visitedBefore o d m.name ++ [m.name] ↔
        q.type ∈ visitedBefore o d m.name ∨ q.type = m.name := by
      rw [List.mem_append, List.mem_singleton]
    rw [progressAfter_visit hd hm]
    cases hb : m.isBlackbox with
    | true =>
      rw [if_pos rfl]
      have hadd := Tags.inverterInput?_addBlackbox (progressBefore o d m.name).tags m q
      have hown : q.type ≠ m.name → Tags.ownInverter? m q = none := by
        intro hne
        cases h : Tags.ownInverter? m q with
        | none => rfl
        | some input => exact absurd (Tags.ownInverter?_eq_some h).1 hne
      have hbefore : (progressBefore o d m.name).tags.inverterInput? q = _ := ih
      rw [hadd, hbefore]
      by_cases ht : q.type = m.name
      · rw [ht, if_neg hout, if_pos (by simp), hm, Option.filter_some_pos hb, Option.bind_some,
          Option.or_none]
      · rw [hown ht, Option.none_or]
        simp only [hmem, ht, or_false]
    | false =>
      rw [if_neg Bool.false_ne_true]
      have he := (entry_tags o d (progressBefore o d m.name) m).2.2.1
      have hsame : (exitOf o d m).tags.inverterInput? q =
          (progressBefore o d m.name).tags.inverterInput? q := by
        unfold Tags.inverterInput? exitOf exitIn
        rw [Insertion.complete_tags, Insertion.tags_inserted.1, he]
      have hbefore : (progressBefore o d m.name).tags.inverterInput? q = _ := ih
      rw [hsame, hbefore]
      by_cases ht : q.type = m.name
      · rw [ht, if_neg hout, if_pos (by simp), hm, Option.filter_some_neg (by simp [hb])]
        rfl
      · simp only [hmem, ht, or_false]

/-! ## What a visit sees -/

theorem mem_sinks_progressBefore (hd : d.NamesUnique) {name : String} :
    q ∈ (progressBefore o d name).tags.sinks ↔ q.type ∈ visitedBefore o d name ∧
      ∃ t ∈ d.find? q.type, TagsSink o d t q := by
  refine (mem_sinks_progressAfter hd (visitedBefore_isPrefix o d name)).trans ?_
  constructor
  · intro h
    obtain ⟨t, ht, hv, htag⟩ := h
    rw [htag.type_eq]
    exact ⟨hv, t, Design.find?_name hd.names ht, htag⟩
  · intro h
    obtain ⟨hv, t, hf, htag⟩ := h
    exact ⟨t, Design.mem_of_find? hf, htag.type_eq ▸ hv, htag⟩

theorem mem_buffered_progressBefore (hd : d.NamesUnique) {name : String} :
    q ∈ (progressBefore o d name).tags.buffered ↔ q ∈ (initialTags o d).buffered ∨
      (q.type ∈ visitedBefore o d name ∧ ∃ t ∈ d.find? q.type, TagsBuffered o d t q) := by
  refine (mem_buffered_progressAfter hd (visitedBefore_isPrefix o d name)).trans (or_congr_right ?_)
  constructor
  · intro h
    obtain ⟨t, ht, hv, htag⟩ := h
    rw [htag.type_eq]
    exact ⟨hv, t, Design.find?_name hd.names ht, htag⟩
  · intro h
    obtain ⟨hv, t, hf, htag⟩ := h
    exact ⟨t, Design.mem_of_find? hf, htag.type_eq ▸ hv, htag⟩

/-- Where port lists are in order, a visit sees the signatures that the design has at the start. -/
theorem signatures_sceneOf (hd : d.NamesUnique) (hp : d.PortsNumbered) (m : Module) :
    (sceneOf o d m).signatures = .ofDesign d :=
  (ofDesign_progressAfter hd hp _).2.2

theorem driven_sceneOf (hd : d.NamesUnique) (hp : d.PortsNumbered) (m : Module) :
    (sceneOf o d m).driven = drivenBits o (.ofDesign d) m := by
  show drivenBits o (sceneOf o d m).signatures m = _
  rw [signatures_sceneOf hd hp]

theorem sinks_of_tagged {π : Pin} (hπ : π ∈ Pin.ofModule m)
    (h : π.portBit ∈ (progressBefore o d m.name).tags.sinks) :
    netOf m π.bit ∈ (sceneOf o d m).clocks.sinks := by
  show netOf m π.bit ∈ (surveyIn (progressBefore o d m.name) m).settled.sinks
  exact Clocks.sinks_subset_settle _ _ (Survey.mem_sinks_survey.mpr ⟨π, hπ, h, rfl⟩)

theorem buffered_of_tagged {π : Pin} (hπ : π ∈ Pin.ofModule m)
    (h : π.portBit ∈ (progressBefore o d m.name).tags.buffered) :
    netOf m π.bit ∈ (sceneOf o d m).clocks.buffered := by
  show netOf m π.bit ∈ (surveyIn (progressBefore o d m.name) m).settled.buffered
  exact Clocks.buffered_subset_settle _ _ (Survey.mem_buffered_survey.mpr ⟨π, hπ, h, rfl⟩)

/-- An instance has been visited before the module that it is in, if nothing contains itself. -/
theorem visitedBefore_of_pin (ha : d.Acyclic) (hm : d.find? m.name = some m)
    (ho : m.name ∈ moduleOrder d o.selection) {π : Pin} (hπ : π ∈ Pin.ofModule m) {t : Module}
    (ht : d.find? π.cell.type = some t) : π.cell.type ∈ visitedBefore o d m.name := by
  obtain ⟨after, he⟩ := order_eq ho
  refine callee_first_of_acyclic ha he ?_ ?_
  · exact ⟨m, hm, π.cell, (Pin.mem_ofModule.mp hπ).1, rfl⟩
  · rw [ht]
    rfl

end

end ClockNet.Buffering

import ClockNet.Proofs.Order
import Mathlib

/-! # The order of the modules as a descent

A descent enters a module, goes down into its instances and notes the module when it leaves it.
Nothing but the modules entered so far keeps it from going on forever; it ends all the same, and
with what the walk gives (`schedule_eq`). The order consists of the modules that can be reached
from where a descent may start (`mem_moduleOrder_iff`), each once and after its instances, unless
these lead back to it (`order_exact`). -/

namespace ClockNet

/-- One module has an instance of another module of the design. -/
def Design.Contains (d : Design) (a b : String) : Prop := d.Instantiates a b ∧ (d.find? b).isSome

/-- All modules on a way from one module to another one are modules of the design. -/
theorem Design.transGen_contains {d : Design} {a b : String}
    (h : Relation.TransGen d.Instantiates a b) (hb : (d.find? b).isSome) :
    Relation.TransGen d.Contains a b := by
  induction h with
  | single hab => exact .single ⟨hab, hb⟩
  | tail _ hcb ih =>
    have hc := hcb
    obtain ⟨m, hm, -⟩ := hc
    exact (ih (by rw [hm]; rfl)).tail ⟨hcb, hb⟩

namespace Buffering

/-! ## The descent -/

/-- One trail continues another one and has done what a walk does in a number of steps. -/
structure Continues (d : Design) (visits : List Visit) (t t' : Trail) : Prop where
  seen : t.seen ⊆ t'.seen
  walk : ∀ todo, walk d (visits ++ todo) t.seen t.order = Buffering.walk d todo t'.seen t'.order

section Descent
variable {d : Design} {t t' t'' : Trail} {visits visits' : List Visit} {name : String}

theorem Continues.refl (d : Design) (t : Trail) : Continues d [] t t :=
  ⟨List.Subset.refl _, fun _ => rfl⟩

theorem Continues.trans (h : Continues d visits t t') (h' : Continues d visits' t' t'') :
    Continues d (visits ++ visits') t t'' := by
  refine ⟨List.Subset.trans h.seen h'.seen, fun todo => ?_⟩
  rw [List.append_assoc, h.walk, h'.walk]

theorem continues_missing (h : d.find? name = none) (t : Trail) :
    Continues d [.enter name] t t :=
  ⟨List.Subset.refl _, fun _ => walk_enter_missing h⟩

theorem continues_seen (h : name ∈ t.seen) : Continues d [.enter name] t t :=
  ⟨List.Subset.refl _, fun _ => walk_enter_seen h⟩

theorem continues_enter {m : Module} (hm : d.find? name = some m) (hn : name ∉ t.seen)
    (h : Continues d ((m.cells.map (·.type)).map .enter) { t with seen := name :: t.seen } t') :
    Continues d [.enter name] t { t' with order := t'.order ++ [name] } := by
  obtain ⟨hseen, hwalk⟩ := h
  refine ⟨fun a ha => hseen (List.mem_cons_of_mem _ ha), fun todo => ?_⟩
  have hinside := hwalk (.leave name :: todo)
  rw [List.map_map, walk_leave] at hinside
  rw [List.singleton_append, walk_enter hm hn]
  exact hinside

theorem unseen_mono {seen seen' : List String} (h : seen ⊆ seen') :
    unseen d seen' ≤ unseen d seen := by
  refine List.countP_mono_left fun m _ hm => ?_
  simp only [List.contains_eq_mem, Bool.not_eq_true', decide_eq_false_iff_not] at hm ⊢
  exact fun hmem => hm (h hmem)

theorem exists_foldlM_descend {n : Nat}
    (hstep : ∀ t name, unseen d t.seen < n → (d.find? name).isSome →
      ∃ t', t.descend d name = some t' ∧ Continues d [.enter name] t t')
    (names : List String) (t : Trail) (ht : unseen d t.seen < n) :
    ∃ t', (names.filter fun name => (d.find? name).isSome).foldlM
        (fun t name => t.descend d name) t = some t' ∧
      Continues d (names.map .enter) t t' := by
  induction names generalizing t with
  | nil => exact ⟨t, rfl, .refl d t⟩
  | cons name rest ih =>
    cases hf : d.find? name with
    | none =>
      obtain ⟨t', hfold, hcont⟩ := ih t ht
      refine ⟨t', ?_, (continues_missing hf t).trans hcont⟩
      rw [List.filter_cons_of_neg (by rw [hf]; exact Bool.false_ne_true), hfold]
    | some m =>
      have hfound : (d.find? name).isSome = true := by rw [hf]; rfl
      obtain ⟨t₁, hfirst, hcont₁⟩ := hstep t name ht hfound
      obtain ⟨t', hfold, hcont⟩ := ih t₁ (Nat.lt_of_le_of_lt (unseen_mono hcont₁.seen) ht)
      refine ⟨t', ?_, hcont₁.trans hcont⟩
      rw [List.filter_cons_of_pos (by exact hfound), List.foldlM_cons, hfirst]
      exact hfold

/-- Every descent ends: going down, there are fewer and fewer modules left to enter. -/
theorem exists_descend (d : Design) (t : Trail) (name : String) (hf : (d.find? name).isSome) :
    ∃ t', t.descend d name = some t' ∧ Continues d [.enter name] t t' := by
  induction hn : unseen d t.seen using Nat.strongRecOn generalizing t name with
  | _ n ih =>
    rw [Trail.descend]
    by_cases hseen : name ∈ t.seen
    · rw [if_pos hseen]
      exact ⟨t, rfl, continues_seen hseen⟩
    · obtain ⟨m, hm⟩ := Option.isSome_iff_exists.mp hf
      have hfewer : unseen d (name :: t.seen) < n := hn ▸ unseen_lt hm hseen
      obtain ⟨t', hfold, hcont⟩ := exists_foldlM_descend
        (fun t name ht hf => ih _ ht t name hf rfl) (m.cells.map (·.type))
        { t with seen := name :: t.seen } hfewer
      refine ⟨{ t' with order := t'.order ++ [name] }, ?_, continues_enter hm hseen hcont⟩
      rw [if_neg hseen, hm]
      dsimp only
      rw [hfold]
      rfl

/-- The descent gives the order of the walk. -/
theorem schedule_eq (d : Design) (selection : Option Selection) :
    schedule d selection = some (moduleOrder d selection) := by
  let names := (d.modules.filter (startsAt selection)).map (·.name)
  have hfound : names.filter (fun name => (d.find? name).isSome) = names := by
    refine List.filter_eq_self.mpr fun name hname => ?_
    obtain ⟨m, hm, rfl⟩ := List.mem_map.mp hname
    exact List.find?_isSome.mpr ⟨m, List.mem_of_mem_filter hm, by simp⟩
  obtain ⟨t, hfold, hcont⟩ := exists_foldlM_descend
    (fun t name _ hf => exists_descend d t name hf) names {} (Nat.lt_succ_self _)
  rw [hfound] at hfold
  have horder : moduleOrder d selection = t.order := by
    have hwalk := hcont.walk []
    rw [List.append_nil, walk] at hwalk
    rw [← hwalk, List.map_map]
    rfl
  unfold schedule
  rw [hfold, horder]
  rfl

end Descent

/-! ## What the walk reaches -/

/-- What holds between the steps of a walk that keeps within a set of modules: what it enters is
in the set, and the instances of what it has entered have been entered or will be. -/
structure Exploring (d : Design) (p : String → Prop) (todo : List Visit)
    (seen order : List String) : Prop where
  entered : ∀ a ∈ seen, p a
  ahead : ∀ a, .enter a ∈ todo → (d.find? a).isSome → p a
  mem_seen : ∀ a, a ∈ seen ↔ a ∈ order ∨ .leave a ∈ todo
  closed : ∀ a ∈ seen, ∀ b, d.Contains a b → b ∈ seen ∨ .enter b ∈ todo

section Reached
variable {d : Design} {p : String → Prop} {todo : List Visit} {seen order : List String}
  {name : String}

theorem Exploring.skip (h : Exploring d p (.enter name :: todo) seen order)
    (hs : (d.find? name).isSome → name ∈ seen) : Exploring d p todo seen order := by
  refine ⟨h.entered, fun a ha => h.ahead a (List.mem_cons_of_mem _ ha), fun a => ?_,
    fun a ha b hab => ?_⟩
  · rw [h.mem_seen, List.mem_cons]
    simp
  · rcases h.closed a ha b hab with hb | hb
    · exact .inl hb
    · rcases List.mem_cons.mp hb with he | hb
      · cases he
        exact .inl (hs hab.2)
      · exact .inr hb

theorem Exploring.enter (hp : ∀ a b, p a → d.Contains a b → p b)
    (h : Exploring d p (.enter name :: todo) seen order) {m : Module}
    (hm : d.find? name = some m) :
    Exploring d p (m.cells.map (fun c => .enter c.type) ++ .leave name :: todo) (name :: seen)
      order := by
  have hname : p name := h.ahead name List.mem_cons_self (by rw [hm]; rfl)
  have hcells : ∀ b, Visit.enter b ∈ m.cells.map (fun c => Visit.enter c.type) ↔
      d.Instantiates name b := by
    intro b
    unfold Design.Instantiates
    rw [hm]
    simp
  have hmem : ∀ b, Visit.enter b ∈ m.cells.map (fun c => .enter c.type) ++ .leave name :: todo ↔
      d.Instantiates name b ∨ .enter b ∈ todo := by
    intro b
    rw [List.mem_append, hcells, List.mem_cons]
    simp
  refine ⟨fun a ha => ?_, fun a ha hf => ?_, fun a => ?_, fun a ha b hab => ?_⟩
  · rcases List.mem_cons.mp ha with rfl | ha
    · exact hname
    · exact h.entered a ha
  · rcases (hmem a).mp ha with hna | ha
    · exact hp name a hname ⟨hna, hf⟩
    · exact h.ahead a (List.mem_cons_of_mem _ ha) hf
  · have hleave : Visit.leave a ∉ m.cells.map fun c => Visit.enter c.type := by simp
    rw [List.mem_cons, h.mem_seen, List.mem_append, List.mem_cons, List.mem_cons]
    simp only [reduceCtorEq, false_or, hleave, Visit.leave.injEq]
    tauto
  · rw [hmem, List.mem_cons]
    rcases List.mem_cons.mp ha with rfl | ha
    · exact .inr (.inl hab.1)
    · rcases h.closed a ha b hab with hb | hb
      · exact .inl (.inr hb)
      · rcases List.mem_cons.mp hb with he | hb
        · cases he
          exact .inl (.inl rfl)
        · exact .inr (.inr hb)

theorem Exploring.leave (h : Exploring d p (.leave name :: todo) seen order) :
    Exploring d p todo seen (order ++ [name]) := by
  refine ⟨h.entered, fun a ha => h.ahead a (List.mem_cons_of_mem _ ha), fun a => ?_,
    fun a ha b hab => ?_⟩
  · rw [h.mem_seen, List.mem_append, List.mem_cons, List.mem_singleton]
    simp only [Visit.leave.injEq]
    tauto
  · exact (h.closed a ha b hab).imp_right fun hb => (List.mem_cons.mp hb).resolve_left (by simp)

/-- A whole walk keeps within the set, and leaves no instance out. -/
theorem Exploring.walk (hp : ∀ a b, p a → d.Contains a b → p b)
    (h : Exploring d p todo seen order) :
    ∃ seen', Exploring d p [] seen' (walk d todo seen order) := by
  induction todo, seen, order using Buffering.walk.induct (d := d) with
  | case1 seen order =>
    rw [Buffering.walk]
    exact ⟨seen, h⟩
  | case2 seen order name todo ih =>
    rw [walk_leave]
    exact ih h.leave
  | case3 seen order name todo hnone ih =>
    rw [walk_enter_missing hnone]
    exact ih (h.skip fun hs => by rw [hnone] at hs; cases hs)
  | case4 seen order name todo m hm hn ih =>
    rw [walk_enter_seen hn]
    exact ih (h.skip fun _ => hn)
  | case5 seen order name todo m hm hn ih =>
    rw [walk_enter hm hn]
    exact ih (h.enter hp hm)

end Reached

/-- A module can be reached from one with contents that is selected. -/
def Reachable (d : Design) (selection : Option Selection) (name : String) : Prop :=
  ∃ m ∈ d.modules, m.isBlackbox = false ∧ (∀ s, selection = some s → s.selectsModule m = true) ∧
    Relation.ReflTransGen d.Contains m.name name

section Order
variable {d : Design} {selection : Option Selection} {name : String}

theorem startsAt_iff {m : Module} : startsAt selection m = true ↔
    m.isBlackbox = false ∧ ∀ s, selection = some s → s.selectsModule m = true := by
  unfold startsAt
  cases selection with
  | none => simp
  | some s => simp

/-- The modules in the order are those that can be reached. -/
theorem mem_moduleOrder_iff : name ∈ moduleOrder d selection ↔ Reachable d selection name := by
  have hp : ∀ a b, Reachable d selection a → d.Contains a b → Reachable d selection b := by
    intro a b ha hab
    obtain ⟨m, hm, hblack, hsel, hway⟩ := ha
    exact ⟨m, hm, hblack, hsel, hway.tail hab⟩
  have hstart : Exploring d (Reachable d selection)
      ((d.modules.filter (startsAt selection)).map fun m => .enter m.name) [] [] := by
    refine ⟨fun a ha => absurd ha List.not_mem_nil, fun a ha _ => ?_, fun a => by simp,
      fun a ha => absurd ha List.not_mem_nil⟩
    obtain ⟨m, hm, he⟩ := List.mem_map.mp ha
    cases he
    obtain ⟨hmem, hs⟩ := List.mem_filter.mp hm
    obtain ⟨hblack, hsel⟩ := startsAt_iff.mp hs
    exact ⟨m, hmem, hblack, hsel, .refl⟩
  obtain ⟨seen, hend⟩ := hstart.walk hp
  have hseen : ∀ a, a ∈ seen ↔ a ∈ moduleOrder d selection := fun a => by
    rw [hend.mem_seen]
    exact or_iff_left (by simp)
  constructor
  · exact fun h => hend.entered name ((hseen name).mpr h)
  · intro h
    obtain ⟨m, hm, hblack, hsel, hway⟩ := h
    induction hway with
    | refl => exact mem_moduleOrder hm (startsAt_iff.mpr ⟨hblack, hsel⟩)
    | tail _ hab ih =>
      exact (hseen _).mp ((hend.closed _ ((hseen _).mpr ih) _ hab).resolve_right (by simp))

/-- The order in which modules are visited: the descent ends with it; it has each module that can
be reached once and no others; and a module stands after the modules that it has instances of, but
for those that lead back to it. Without cycles it stands after all of them. -/
theorem order_exact (d : Design) (selection : Option Selection) :
    schedule d selection = some (moduleOrder d selection) ∧
    (moduleOrder d selection).Nodup ∧
    (∀ name, name ∈ moduleOrder d selection ↔ Reachable d selection name) ∧
    (∀ before u after, moduleOrder d selection = before ++ u :: after → ∀ v, d.Contains u v →
      v ∈ before ∨ Relation.TransGen d.Contains v u) ∧
    (d.Acyclic → ∀ before u after, moduleOrder d selection = before ++ u :: after → ∀ v,
      d.Contains u v → v ∈ before) := by
  refine ⟨schedule_eq d selection, nodup_moduleOrder d selection, fun _ => mem_moduleOrder_iff,
    ?_, ?_⟩
  · intro before u after horder v huv
    refine (callee_first horder v huv.1 huv.2).imp_right fun hway => ?_
    refine Design.transGen_contains hway ?_
    obtain ⟨m, hm, -⟩ := huv.1
    rw [hm]
    rfl
  · intro hacyclic before u after horder v huv
    exact callee_first_of_acyclic hacyclic horder huv.1 huv.2

end Order

/-! ## Two modules within each other -/

/-- Two modules that contain each other, one of them a shared leaf as well, and a black box that
nothing contains. -/
def ring : Design :=
  ⟨[{ name := "top", cells := [{ name := "u", type := "a" }, { name := "v", type := "leaf" }] },
    { name := "a", cells := [{ name := "u", type := "b" }] },
    { name := "b", cells := [{ name := "u", type := "a" }, { name := "v", type := "leaf" }] },
    { name := "leaf" },
    { name := "box"
      attributes := SortedTable.empty.insert Attribute.blackbox (.const [.one]) }]⟩

/-- The cycle is cut where it closes: only the leaf stands before the inner module. -/
theorem order_exact_ring : schedule ring none = some ["leaf", "b", "a", "top"] ∧
    ¬ Reachable ring none "box" ∧ Relation.TransGen ring.Contains "a" "b" := by
  have horder : moduleOrder ring none = ["leaf", "b", "a", "top"] := by cbv
  obtain ⟨hschedule, -, hreach, hbefore, -⟩ := order_exact ring none
  rw [horder] at hschedule hreach hbefore
  refine ⟨hschedule, fun h => ?_, ?_⟩
  · have hmem := (hreach "box").mpr h
    simp at hmem
  · refine (hbefore ["leaf"] "b" ["a", "top"] rfl "a" ?_).resolve_left (by decide)
    exact ⟨⟨_, rfl, { name := "u", type := "a" }, List.mem_cons_self, rfl⟩, rfl⟩

end Buffering

end ClockNet

import ClockNet.Buffering.Order
import ClockNet.Proofs.Naming
import Mathlib.Logic.Relation

/-! # The order of the modules

The walk that orders the modules keeps what it has entered and what it still has to leave in
step (`Walking`). So no module is visited twice, the instances of a visited module have been
visited as well, and before it, unless they lead back to it (`callee_first`). What a walk does
outside a set of modules that is closed under instantiation does not depend on what is in the
set (`filter_walk`). -/

namespace ClockNet

/-- One module has a cell of the type that is the name of the other. -/
def Design.Instantiates (d : Design) (a b : String) : Prop :=
  ∃ m, d.find? a = some m ∧ ∃ c ∈ m.cells, c.type = b

/-- No module contains itself, at any depth. -/
def Design.Acyclic (d : Design) : Prop := ∀ a, ¬ Relation.TransGen d.Instantiates a a

/-- Names can be ranked so that each module is above those it instantiates. -/
theorem Design.acyclic_of_rank {d : Design} (rank : String → Nat)
    (h : ∀ m ∈ d.modules, ∀ c ∈ m.cells, rank c.type < rank m.name) : d.Acyclic := by
  have hlt : ∀ a b, Relation.TransGen d.Instantiates a b → rank b < rank a := by
    intro a b hab
    induction hab with
    | single hab =>
      obtain ⟨m, hm, c, hc, rfl⟩ := hab
      exact name_of_find? hm ▸ h m (mem_of_find? hm) c hc
    | tail _ hbc ih =>
      obtain ⟨m, hm, c, hc, rfl⟩ := hbc
      exact Nat.lt_trans (name_of_find? hm ▸ h m (mem_of_find? hm) c hc) ih
  exact fun a ha => Nat.lt_irrefl _ (hlt a a ha)

namespace Buffering

def Visit.module : Visit → String
  | enter name => name
  | leave name => name

@[simp] theorem Visit.module_enter (name : String) : (enter name).module = name := rfl

@[simp] theorem Visit.module_leave (name : String) : (leave name).module = name := rfl

def Visit.leaves? : Visit → Option String
  | enter _ => none
  | leave name => some name

theorem mem_leaves {todo : List Visit} {a : String} :
    a ∈ todo.filterMap Visit.leaves? ↔ .leave a ∈ todo := by
  rw [List.mem_filterMap]
  constructor
  · intro hex
    obtain ⟨v, hv, he⟩ := hex
    cases v with
    | enter => cases he
    | leave => cases he; exact hv
  · exact fun h => ⟨_, h, rfl⟩

def Entering (enters : List Visit) : Prop := ∀ v ∈ enters, ∃ b, v = .enter b

section Entering
variable {enters : List Visit}

theorem entering_map {α : Type} (f : α → String) (l : List α) :
    Entering (l.map fun x => .enter (f x)) := fun _ hv =>
  (List.mem_map.mp hv).imp' f fun _ hx => hx.2.symm

theorem Entering.leave_not_mem (h : Entering enters) (a : String) : .leave a ∉ enters := by
  intro ha
  obtain ⟨b, he⟩ := h _ ha
  cases he

theorem Entering.leaves (h : Entering enters) : enters.filterMap Visit.leaves? = [] := by
  refine List.filterMap_eq_nil_iff.mpr fun v hv => ?_
  obtain ⟨b, rfl⟩ := h v hv
  rfl

theorem Entering.pairwise (h : Entering enters) {P : String → Visit → Prop} :
    enters.Pairwise fun v w => ∀ a, w = .leave a → P a v := by
  refine List.pairwise_of_forall_mem_list fun v _ w hw a he => ?_
  exact absurd (he ▸ hw) (h.leave_not_mem a)

end Entering

/-! ## The steps of a walk -/

section Equations
variable {d : Design} {todo : List Visit} {seen order : List String} {name : String}

theorem walk_enter_missing (h : d.find? name = none) :
    walk d (.enter name :: todo) seen order = walk d todo seen order := by
  rw [walk, h]

theorem walk_enter_seen (hn : name ∈ seen) :
    walk d (.enter name :: todo) seen order = walk d todo seen order := by
  rw [walk]
  split
  · rfl
  · rw [dif_pos hn]

theorem walk_enter {m : Module} (h : d.find? name = some m) (hn : name ∉ seen) :
    walk d (.enter name :: todo) seen order =
      walk d (m.cells.map (fun c => .enter c.type) ++ .leave name :: todo) (name :: seen)
        order := by
  rw [walk]
  split
  · rename_i hnone
    rw [h] at hnone
    cases hnone
  · rename_i m' hm'
    rw [h] at hm'
    cases hm'
    rw [dif_neg hn]

theorem walk_leave : walk d (.leave name :: todo) seen order =
    walk d todo seen (order ++ [name]) := by
  rw [walk]

end Equations

/-! ## What a walk keeps -/

/-- The children of a module are dealt with: each stands before it or leads back to it. -/
def ChildrenBefore (d : Design) (before : List String) (a : String) : Prop :=
  ∀ b, d.Instantiates a b → (d.find? b).isSome →
    b ∈ before ∨ Relation.TransGen d.Instantiates b a

/-- What holds between the steps of a walk. -/
structure Walking (d : Design) (todo : List Visit) (seen order : List String) : Prop where
  /-- No module is left twice. -/
  nodup : (order ++ todo.filterMap Visit.leaves?).Nodup
  /-- What has been entered has been left or is still to be left. -/
  mem_seen : ∀ a, a ∈ seen ↔ a ∈ order ∨ .leave a ∈ todo
  /-- Only modules of the design are entered. -/
  found : ∀ a ∈ seen, (d.find? a).isSome
  /-- What stands before the leaving of a module lies below it. -/
  stacked : todo.Pairwise fun v w => ∀ a, w = .leave a →
    Relation.TransGen d.Instantiates a v.module
  /-- The children of a module still to be left have been entered or will be before that. -/
  pending : ∀ pre a post, todo = pre ++ .leave a :: post → ∀ b, d.Instantiates a b →
    (d.find? b).isSome → b ∈ seen ∨ .enter b ∈ pre
  /-- The modules left so far stand after their children. -/
  done : ∀ pre a post, order = pre ++ a :: post → ChildrenBefore d pre a

section Steps
variable {d : Design} {todo : List Visit} {seen order : List String} {name : String}

theorem Walking.skip (h : Walking d (.enter name :: todo) seen order)
    (hs : (d.find? name).isSome → name ∈ seen) : Walking d todo seen order := by
  refine ⟨h.nodup, fun a => ?_, h.found, (List.pairwise_cons.mp h.stacked).2, ?_, h.done⟩
  · rw [h.mem_seen, List.mem_cons]
    simp
  · intro pre a post he b hb hf
    rcases h.pending (.enter name :: pre) a post (by rw [he]; rfl) b hb hf with hb | hb
    · exact .inl hb
    · rcases List.mem_cons.mp hb with heq | hb
      · cases heq
        exact .inl (hs hf)
      · exact .inr hb

/-- Where a leaving stands behind steps that only enter. -/
theorem leave_cases {enters pre post : List Visit} {a : String} (henters : Entering enters)
    (he : enters ++ .leave name :: todo = pre ++ .leave a :: post) :
    (a = name ∧ pre = enters) ∨
      ∃ pre', pre = enters ++ .leave name :: pre' ∧ todo = pre' ++ .leave a :: post := by
  induction enters generalizing pre with
  | nil =>
    cases pre with
    | nil =>
      cases he
      exact .inl ⟨rfl, rfl⟩
    | cons v pre' =>
      cases he
      exact .inr ⟨pre', rfl, rfl⟩
  | cons v rest ih =>
    cases pre with
    | nil =>
      obtain ⟨b, rfl⟩ := henters v List.mem_cons_self
      cases he
    | cons w pre' =>
      rw [List.cons_append, List.cons_append] at he
      obtain ⟨rfl, htail⟩ := List.cons_eq_cons.mp he
      rcases ih (fun v hv => henters v (List.mem_cons_of_mem _ hv)) htail with
        ⟨rfl, rfl⟩ | ⟨pre'', rfl, rfl⟩
      · exact .inl ⟨rfl, rfl⟩
      · exact .inr ⟨pre'', rfl, rfl⟩

theorem leave_mem_enter {m : Module} {a : String} :
    .leave a ∈ m.cells.map (fun c => Visit.enter c.type) ++ .leave name :: todo ↔
      a = name ∨ .leave a ∈ todo := by
  rw [List.mem_append, or_iff_right ((entering_map _ _).leave_not_mem a), List.mem_cons,
    Visit.leave.injEq]

/-- What stands before a leaving still lies below the module to be left. -/
theorem Walking.stacked_enter (h : Walking d (.enter name :: todo) seen order) {m : Module}
    (hm : d.find? name = some m) :
    (m.cells.map (fun c => Visit.enter c.type) ++ .leave name :: todo).Pairwise fun v w => ∀ a,
      w = .leave a → Relation.TransGen d.Instantiates a v.module := by
  obtain ⟨hbelow, hstacked⟩ := List.pairwise_cons.mp h.stacked
  rw [List.pairwise_append]
  refine ⟨(entering_map _ _).pairwise,
    List.pairwise_cons.mpr ⟨fun w hw a he => hbelow w hw a he, hstacked⟩, ?_⟩
  intro v hv w hw a he
  obtain ⟨c, hc, rfl⟩ := List.mem_map.mp hv
  have hchild : d.Instantiates name c.type := ⟨m, hm, c, hc, rfl⟩
  rcases List.mem_cons.mp hw with heq | hw
  · rw [heq] at he
    cases he
    exact .single hchild
  · exact (hbelow w hw a he).tail hchild

theorem Walking.pending_enter (h : Walking d (.enter name :: todo) seen order) {m : Module}
    (hm : d.find? name = some m) {pre post : List Visit} {a b : String}
    (he : m.cells.map (fun c => Visit.enter c.type) ++ .leave name :: todo =
      pre ++ .leave a :: post)
    (hb : d.Instantiates a b) (hf : (d.find? b).isSome) : b ∈ name :: seen ∨ .enter b ∈ pre := by
  rcases leave_cases (entering_map _ _) he with ⟨rfl, rfl⟩ | ⟨pre', rfl, he'⟩
  · obtain ⟨m', hm', c, hc, rfl⟩ := hb
    rw [hm] at hm'
    cases hm'
    exact .inr (List.mem_map_of_mem (f := fun c : Cell => Visit.enter c.type) hc)
  · rcases h.pending (.enter name :: pre') a post (by rw [he']; rfl) b hb hf with hb | hb
    · exact .inl (List.mem_cons_of_mem _ hb)
    · rcases List.mem_cons.mp hb with heq | hb
      · cases heq
        exact .inl List.mem_cons_self
      · exact .inr (List.mem_append_right _ (List.mem_cons_of_mem _ hb))

theorem Walking.enter (h : Walking d (.enter name :: todo) seen order) {m : Module}
    (hm : d.find? name = some m) (hn : name ∉ seen) :
    Walking d (m.cells.map (fun c => .enter c.type) ++ .leave name :: todo) (name :: seen)
      order := by
  refine ⟨?_, fun a => ?_, ?_, h.stacked_enter hm, fun _ _ _ he _ => h.pending_enter hm he, h.done⟩
  · rw [List.filterMap_append, (entering_map _ _).leaves, List.nil_append]
    refine List.nodup_middle.mpr (List.nodup_cons.mpr ⟨fun hmem => hn ?_, h.nodup⟩)
    rw [h.mem_seen]
    exact (List.mem_append.mp hmem).imp_right fun hl =>
      List.mem_cons_of_mem _ (mem_leaves.mp hl)
  · rw [leave_mem_enter, List.mem_cons, h.mem_seen, List.mem_cons]
    simp only [reduceCtorEq, false_or]
    tauto
  · intro a ha
    rcases List.mem_cons.mp ha with rfl | ha
    · rw [hm]; rfl
    · exact h.found a ha

theorem Walking.leave (h : Walking d (.leave name :: todo) seen order) :
    Walking d todo seen (order ++ [name]) := by
  obtain ⟨hbelow, hstacked⟩ := List.pairwise_cons.mp h.stacked
  refine ⟨?_, fun a => ?_, h.found, hstacked, ?_, ?_⟩
  · rw [List.append_assoc]
    exact h.nodup
  · rw [h.mem_seen, List.mem_append, List.mem_cons, List.mem_singleton]
    simp only [Visit.leave.injEq]
    tauto
  · intro pre a post he b hb hf
    rcases h.pending (.leave name :: pre) a post (by rw [he]; rfl) b hb hf with hb | hb
    · exact .inl hb
    · exact .inr ((List.mem_cons.mp hb).resolve_left (by simp))
  · intro pre a post he b hb hf
    rcases List.eq_nil_or_concat post with rfl | ⟨post', last, rfl⟩
    · obtain ⟨rfl, hlast⟩ := List.append_inj' he rfl
      cases hlast
      rcases h.pending [] name todo rfl b hb hf with hs | hs
      · rcases (h.mem_seen b).mp hs with hs | hs
        · exact .inl hs
        · rcases List.mem_cons.mp hs with heq | hs
          · cases heq
            exact .inr (.single hb)
          · exact .inr (hbelow _ hs b rfl)
      · cases hs
    · rw [List.concat_eq_append, ← List.cons_append, ← List.append_assoc] at he
      obtain ⟨rfl, -⟩ := List.append_inj' he rfl
      exact h.done pre a post' rfl b hb hf

end Steps

theorem Walking.walk {d : Design} {todo : List Visit} {seen order : List String}
    (h : Walking d todo seen order) :
    ∃ seen', Walking d [] seen' (walk d todo seen order) ∧ seen ⊆ seen' ∧
      ∀ name, .enter name ∈ todo → (d.find? name).isSome → name ∈ seen' := by
  induction todo, seen, order using Buffering.walk.induct (d := d) with
  | case1 seen order =>
    rw [Buffering.walk]
    exact ⟨seen, h, List.Subset.refl _, fun name hn => by cases hn⟩
  | case2 seen order name todo ih =>
    rw [walk_leave]
    obtain ⟨seen', hw, hsub, hin⟩ := ih h.leave
    refine ⟨seen', hw, hsub, fun b hb hf => hin b ?_ hf⟩
    exact (List.mem_cons.mp hb).resolve_left (by simp)
  | case3 seen order name todo hnone ih =>
    have hskip : (d.find? name).isSome → name ∈ seen := by
      rw [hnone]
      exact fun hs => by cases hs
    obtain ⟨seen', hw, hsub, hin⟩ := ih (h.skip hskip)
    rw [walk_enter_missing hnone]
    refine ⟨seen', hw, hsub, fun b hb hf => ?_⟩
    rcases List.mem_cons.mp hb with he | hb
    · cases he
      exact hsub (hskip hf)
    · exact hin b hb hf
  | case4 seen order name todo m hm hn ih =>
    obtain ⟨seen', hw, hsub, hin⟩ := ih (h.skip fun _ => hn)
    rw [walk_enter_seen hn]
    refine ⟨seen', hw, hsub, fun b hb hf => ?_⟩
    rcases List.mem_cons.mp hb with he | hb
    · cases he
      exact hsub hn
    · exact hin b hb hf
  | case5 seen order name todo m hm hn ih =>
    obtain ⟨seen', hw, hsub, hin⟩ := ih (h.enter hm hn)
    rw [walk_enter hm hn]
    refine ⟨seen', hw, fun b hb => hsub (List.mem_cons_of_mem _ hb), fun b hb hf => ?_⟩
    rcases List.mem_cons.mp hb with he | hb
    · cases he
      exact hsub List.mem_cons_self
    · exact hin b (List.mem_append_right _ (List.mem_cons_of_mem _ hb)) hf

/-! ## The order of a design -/

section ModuleOrder
variable {d : Design} {selection : Option Selection}

theorem walking_start (d : Design) (names : List String) :
    Walking d (names.map Visit.enter) [] [] := by
  have henter : Entering (names.map Visit.enter) := entering_map _ names
  refine ⟨?_, fun a => ?_, ?_, henter.pairwise, ?_, ?_⟩
  · rw [henter.leaves]
    exact List.nodup_nil
  · simp [henter.leave_not_mem a]
  · intro a ha
    cases ha
  · intro pre a post he
    exact absurd (he ▸ List.mem_append_right _ List.mem_cons_self) (henter.leave_not_mem a)
  · intro pre a post he
    cases pre <;> cases he

/-- What is known of the order in which a run visits the modules of a design. -/
theorem walking_moduleOrder (d : Design) (selection : Option Selection) :
    ∃ seen, Walking d [] seen (moduleOrder d selection) ∧
      ∀ m ∈ d.modules, startsAt selection m = true → m.name ∈ seen := by
  have hnames : (d.modules.filter (startsAt selection)).map (fun m => Visit.enter m.name) =
      ((d.modules.filter (startsAt selection)).map (·.name)).map Visit.enter := by
    rw [List.map_map]
    rfl
  have hstart := walking_start d ((d.modules.filter (startsAt selection)).map (·.name))
  rw [← hnames] at hstart
  obtain ⟨seen, hw, -, hin⟩ := hstart.walk
  refine ⟨seen, hw, fun m hm hs => hin m.name ?_ ?_⟩
  · exact List.mem_map.mpr ⟨m, List.mem_filter.mpr ⟨hm, hs⟩, rfl⟩
  · exact List.find?_isSome.mpr ⟨m, hm, by simp⟩

theorem nodup_moduleOrder (d : Design) (selection : Option Selection) :
    (moduleOrder d selection).Nodup := by
  obtain ⟨seen, hw, -⟩ := walking_moduleOrder d selection
  simpa using hw.nodup

theorem found_moduleOrder {name : String} (h : name ∈ moduleOrder d selection) :
    ∃ m, d.find? name = some m := by
  obtain ⟨seen, hw, -⟩ := walking_moduleOrder d selection
  exact Option.isSome_iff_exists.mp (hw.found name ((hw.mem_seen name).mpr (.inl h)))

theorem mem_moduleOrder {m : Module} (hm : m ∈ d.modules) (hs : startsAt selection m = true) :
    m.name ∈ moduleOrder d selection := by
  obtain ⟨seen, hw, hin⟩ := walking_moduleOrder d selection
  exact ((hw.mem_seen m.name).mp (hin m hm hs)).resolve_right (by simp)

/-- The modules that a visited module instantiates are visited before it, unless they lead
back to it. -/
theorem callee_first {pre post : List String} {a : String}
    (h : moduleOrder d selection = pre ++ a :: post) : ChildrenBefore d pre a := by
  obtain ⟨seen, hw, -⟩ := walking_moduleOrder d selection
  exact hw.done pre a post h

theorem callee_first_of_acyclic (ha : d.Acyclic) {pre post : List String} {a b : String}
    (h : moduleOrder d selection = pre ++ a :: post) (hb : d.Instantiates a b)
    (hf : (d.find? b).isSome) : b ∈ pre :=
  (callee_first h b hb hf).resolve_right fun hba => ha b (hba.tail hb)

end ModuleOrder

/-! ## Walks outside a set of modules -/

section Outside
variable {inside : String → Bool} {d d' : Design}

/-- The design without the modules of a set and without the instances of them. -/
def outside (inside : String → Bool) (d : Design) : Design :=
  ⟨(d.modules.filter fun m => !inside m.name).map fun m =>
    { m with cells := m.cells.filter fun c => !inside c.type }⟩

/-- What the modules of a set instantiate is in the set. -/
def ClosedUnder (inside : String → Bool) (d : Design) : Prop :=
  ∀ a b, inside a = true → d.Instantiates a b → inside b = true

theorem find?_outside (inside : String → Bool) (d : Design) (name : String) :
    (outside inside d).find? name = if inside name then none else (d.find? name).map fun m =>
      { m with cells := m.cells.filter fun c => !inside c.type } := by
  unfold Design.find? outside
  dsimp only
  rw [List.find?_map, List.find?_filter]
  by_cases hi : inside name = true
  · rw [if_pos hi, Option.map_eq_none_iff, List.find?_eq_none]
    intro m _
    simp only [Function.comp_apply, decide_eq_true_eq, not_and, Bool.not_eq_true',
      beq_iff_eq]
    intro hm he
    subst he
    rw [hi] at hm
    cases hm
  · rw [if_neg hi]
    congr 2
    funext m
    by_cases hm : m.name = name
    · subst hm
      simp [hi]
    · simp [hm]

/-- What a walk does outside a closed set is a walk of the rest of the design. -/
theorem walk_outside (hc : ClosedUnder inside d) (todo : List Visit) (seen order : List String) :
    (walk d todo seen order).filter (fun a => !inside a) =
      walk (outside inside d) (todo.filter fun v => !inside v.module)
        (seen.filter fun a => !inside a) (order.filter fun a => !inside a) := by
  induction todo, seen, order using Buffering.walk.induct (d := d) with
  | case1 seen order =>
    rw [walk, List.filter_nil, walk]
  | case2 seen order name todo ih =>
    rw [walk_leave, ih, List.filter_append]
    by_cases hi : inside name = true
    · rw [List.filter_cons_of_neg (by simpa using hi),
        List.filter_cons_of_neg (by simpa using hi), List.filter_nil, List.append_nil]
    · rw [List.filter_cons_of_pos (by simpa using hi),
        List.filter_cons_of_pos (by simpa using hi), List.filter_nil, walk_leave]
  | case3 seen order name todo hnone ih =>
    rw [walk_enter_missing hnone, ih]
    by_cases hi : inside name = true
    · rw [List.filter_cons_of_neg (by simpa using hi)]
    · rw [List.filter_cons_of_pos (by simpa using hi), walk_enter_missing]
      rw [find?_outside, hnone]
      simp
  | case4 seen order name todo m hm hn ih =>
    rw [walk_enter_seen hn, ih]
    by_cases hi : inside name = true
    · rw [List.filter_cons_of_neg (by simpa using hi)]
    · rw [List.filter_cons_of_pos (by simpa using hi), walk_enter_seen]
      exact List.mem_filter.mpr ⟨hn, by simpa using hi⟩
  | case5 seen order name todo m hm hn ih =>
    rw [walk_enter hm hn, ih, List.filter_append]
    by_cases hi : inside name = true
    · have hnil : (m.cells.map fun c => Visit.enter c.type).filter
          (fun v => !inside v.module) = [] := by
        refine List.filter_eq_nil_iff.mpr fun v hv => ?_
        obtain ⟨c, hmem, rfl⟩ := List.mem_map.mp hv
        have hin := hc name c.type hi ⟨m, hm, c, hmem, rfl⟩
        simpa using hin
      rw [hnil, List.nil_append, List.filter_cons_of_neg (by simpa using hi),
        List.filter_cons_of_neg (by simpa using hi),
        List.filter_cons_of_neg (by simpa using hi)]
    · have hfind : (outside inside d).find? name =
          some { m with cells := m.cells.filter fun c => !inside c.type } := by
        rw [find?_outside, hm, if_neg hi]
        rfl
      have hn' : name ∉ seen.filter fun a => !inside a := fun hmem =>
        hn (List.mem_of_mem_filter hmem)
      rw [List.filter_cons_of_pos (p := fun v => !inside v.module) (a := Visit.leave name)
          (by simpa using hi),
        List.filter_cons_of_pos (p := fun a => !inside a) (a := name) (by simpa using hi),
        List.filter_cons_of_pos (p := fun v => !inside v.module) (a := Visit.enter name)
          (by simpa using hi),
        walk_enter hfind hn', List.filter_map]
      rfl

/-- A walk looks at nothing of a module but the types of its cells. -/
theorem walk_congr (h : ∀ name, (d.find? name).map (fun m => m.cells.map (·.type)) =
      (d'.find? name).map fun m => m.cells.map (·.type))
    (todo : List Visit) (seen order : List String) :
    walk d todo seen order = walk d' todo seen order := by
  induction todo, seen, order using Buffering.walk.induct (d := d) with
  | case1 seen order => rw [walk, walk]
  | case2 seen order name todo ih => rw [walk_leave, walk_leave, ih]
  | case3 seen order name todo hnone ih =>
    have hnone' : d'.find? name = none := by
      have hn := h name
      rw [hnone, Option.map_none] at hn
      exact Option.map_eq_none_iff.mp hn.symm
    rw [walk_enter_missing hnone, walk_enter_missing hnone', ih]
  | case4 seen order name todo m hm hn ih => rw [walk_enter_seen hn, walk_enter_seen hn, ih]
  | case5 seen order name todo m hm hn ih =>
    have hs := h name
    rw [hm, Option.map_some] at hs
    obtain ⟨m', hm', htypes⟩ := Option.map_eq_some_iff.mp hs.symm
    have henters : m'.cells.map (fun c => Visit.enter c.type) =
        m.cells.map fun c => Visit.enter c.type := by
      have he := congrArg (List.map Visit.enter) htypes
      rwa [List.map_map, List.map_map] at he
    rw [walk_enter hm hn, walk_enter hm' hn, ih, henters]

/-- Two walks agree outside a set that is closed for both, if they start at the same modules
outside it and the modules outside it have the same instances outside it. -/
theorem filter_walk (hc : ClosedUnder inside d) (hc' : ClosedUnder inside d')
    (h : ∀ name, inside name = false →
      (d.find? name).map (fun m => (m.cells.map (·.type)).filter fun t => !inside t) =
        (d'.find? name).map fun m => (m.cells.map (·.type)).filter fun t => !inside t)
    {todo todo' : List Visit} (ht : todo.filter (fun v => !inside v.module) =
      todo'.filter fun v => !inside v.module) :
    (walk d todo [] []).filter (fun a => !inside a) =
      (walk d' todo' [] []).filter fun a => !inside a := by
  have hwalk : ∀ todo seen order, walk (outside inside d) todo seen order =
      walk (outside inside d') todo seen order := by
    refine walk_congr fun name => ?_
    rw [find?_outside, find?_outside]
    cases hi : inside name with
    | true => rfl
    | false =>
      have hn := h name hi
      simp only [List.filter_map] at hn
      simpa [Function.comp_def] using hn
  rw [walk_outside hc, walk_outside hc', ht, hwalk]

end Outside

end Buffering

end ClockNet

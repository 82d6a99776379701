import ClockNet.Json.Parser
import ClockNet.Proofs.Tables

/-! # Trees with distinct names

A field of an object that is set again takes a new value in its old place, so no object of a tree
that has been read has two fields of one name (`keyed_of_parse?`). What a tree holds under a name
is then what it lists under that name. -/

namespace ClockNet.Json

/-! ## Trees -/

/-- No object in the tree has two fields of one name. -/
inductive Keyed : Json → Prop where
  | null : Keyed .null
  | bool (b : Bool) : Keyed (.bool b)
  | number (n : Number) : Keyed (.number n)
  | string (s : String) : Keyed (.string s)
  | array {items : List Json} (hitems : ∀ j ∈ items, Keyed j) : Keyed (.array items)
  | object {fields : List (String × Json)} (hnames : (fields.map Prod.fst).Nodup)
      (hfields : ∀ e ∈ fields, Keyed e.2) : Keyed (.object fields)

namespace Keyed
variable {j v : Json} {fields : List (String × Json)}

theorem nodup_fields (h : Keyed j) : (j.fields.map Prod.fst).Nodup := by
  cases h with
  | object hnames _ => exact hnames
  | _ => exact List.nodup_nil

theorem mem_fields (h : Keyed j) {e : String × Json} (he : e ∈ j.fields) : Keyed e.2 := by
  cases h with
  | object _ hfields => exact hfields e he
  | _ => cases he

theorem field (h : Keyed j) (name : String) : Keyed (j.field name) := by
  unfold Json.field
  cases hfind : j.fields.find? (·.1 == name) with
  | none => exact .null
  | some e => exact h.mem_fields (List.mem_of_find?_eq_some hfind)

theorem set (hnames : (fields.map Prod.fst).Nodup) (hfields : ∀ e ∈ fields, Keyed e.2)
    (name : String) (hv : Keyed v) : Keyed (.object (replaceOrAppend name v fields)) := by
  refine .object (nodup_replaceOrAppend name v hnames) fun e he => ?_
  rcases OrderedTable.mem_replaceOrAppend he with he | rfl
  · exact hfields e he
  · exact hv

end Keyed

/-! ## Tokens -/

/-- The values that are tokens have no parts. -/
def TokensKeyed (ts : List Token) : Prop := ∀ v, .scalar v ∈ ts → Keyed v

theorem TokensKeyed.tail {t : Token} {ts : List Token} (h : TokensKeyed (t :: ts)) :
    TokensKeyed ts := fun v hv => h v (List.mem_cons_of_mem _ hv)

theorem keyed_of_token? {c : Char} {rest rest' : List Char} {v : Json}
    (h : token? c rest = some (.scalar v, rest')) : Keyed v := by
  have hmap : ∀ {α : Type} {f : α → Json} {x : Option (α × List Char)}, (∀ a, Keyed (f a)) →
      x.map (fun r => (Token.scalar (f r.1), r.2)) = some (.scalar v, rest') → Keyed v := by
    intro α f x hf hx
    obtain ⟨r, -, hr⟩ := Option.map_eq_some_iff.mp hx
    obtain rfl := Token.scalar.inj (Prod.mk.inj hr).1
    exact hf r.1
  have hword : ∀ {w : Json} {x : Option (List Char)}, Keyed w →
      x.map (fun rest => (Token.scalar w, rest)) = some (.scalar v, rest') → Keyed v := by
    intro w x hw hx
    obtain ⟨r, -, hr⟩ := Option.map_eq_some_iff.mp hx
    obtain rfl := Token.scalar.inj (Prod.mk.inj hr).1
    exact hw
  unfold token? at h
  split at h
  iterate 6 cases h
  · exact hmap (fun chars => .string (String.ofList chars)) h
  · exact hword .null h
  · exact hword (.bool true) h
  · exact hword (.bool false) h
  · exact hmap .number h
  · split at h
    · exact hmap .number h
    · cases h

theorem tokensKeyed_of_tokens? {text : List Char} {ts : List Token} (h : tokens? text = some ts) :
    TokensKeyed ts := by
  fun_induction tokens? text generalizing ts with
  | case1 =>
    obtain rfl := Option.some.inj h
    exact fun v hv => by cases hv
  | case2 c rest hspace ih => exact ih h
  | case3 c rest hspace t rest' htoken ih =>
    obtain ⟨more, hmore, rfl⟩ := Option.map_eq_some_iff.mp h
    intro v hv
    rcases List.mem_cons.mp hv with rfl | hv
    · exact keyed_of_token? htoken
    · exact ih hmore v hv
  | case4 => cases h

/-! ## Reading -/

/-- What has been read of an open array or object. -/
def FrameKeyed : Frame → Prop
  | .array items => ∀ j ∈ items, Keyed j
  | .object fields _ => (fields.map Prod.fst).Nodup ∧ ∀ e ∈ fields, Keyed e.2

def StackKeyed (stack : List Frame) : Prop := ∀ f ∈ stack, FrameKeyed f

theorem stackKeyed_cons {f : Frame} {stack : List Frame} :
    StackKeyed (f :: stack) ↔ FrameKeyed f ∧ StackKeyed stack := List.forall_mem_cons

theorem stackKeyed_of_push? {f : Frame} {stack stack' : List Frame} (hf : FrameKeyed f)
    (h : StackKeyed stack) (hpush : push? f stack = some stack') : StackKeyed stack' := by
  unfold push? at hpush
  split at hpush
  · obtain rfl := Option.some.inj hpush
    exact stackKeyed_cons.mpr ⟨hf, h⟩
  · cases hpush

/-- From open parts with distinct names, reading a value gives a tree with distinct names. -/
def ReadsKeyed (stack : List Frame) (ts : List Token) : Prop :=
  StackKeyed stack → TokensKeyed ts → ∀ j, readValue stack ts = some j → Keyed j

/-- So does putting a value with distinct names in its place. -/
def FinishesKeyed (v : Json) (stack : List Frame) (ts : List Token) : Prop :=
  Keyed v → StackKeyed stack → TokensKeyed ts → ∀ j, finish v stack ts = some j → Keyed j

theorem keyed_steps :
    (∀ stack ts, ReadsKeyed stack ts) ∧ ∀ v stack ts, FinishesKeyed v stack ts := by
  refine readValue.mutual_induct ReadsKeyed FinishesKeyed ?scalar ?emptyArray ?array ?deepArray
    ?emptyObject ?object ?deepObject ?noValue ?done ?openEnd ?nextItem ?nextField ?noNext ?endArray
    ?noArray ?endObject ?noObject ?noMark
  case scalar =>
    intro stack v ts ih hstack hts j h
    rw [readValue] at h
    exact ih (hts v List.mem_cons_self) hstack hts.tail j h
  case emptyArray =>
    intro stack ts ih hstack hts j h
    rw [readValue] at h
    exact ih (.array fun _ h => by cases h) hstack hts.tail.tail j h
  case array =>
    intro stack ts hclose stack' hpush ih hstack hts j h
    have hframe : FrameKeyed (.array []) := fun _ h => by cases h
    rw [readValue, hpush] at h
    · exact ih (stackKeyed_of_push? hframe hstack hpush) hts.tail j h
    · exact hclose
  case emptyObject =>
    intro stack ts ih hstack hts j h
    rw [readValue] at h
    exact ih (.object List.nodup_nil fun _ h => by cases h) hstack hts.tail.tail j h
  case object =>
    intro stack name ts stack' hpush ih hstack hts j h
    have hframe : FrameKeyed (.object [] name) := ⟨List.nodup_nil, fun _ h => by cases h⟩
    rw [readValue, hpush] at h
    exact ih (stackKeyed_of_push? hframe hstack hpush) hts.tail.tail.tail j h
  case done =>
    intro v hv hstack hts j h
    rw [finish] at h
    exact Option.some.inj h ▸ hv
  case nextItem =>
    intro v items stack ts ih hv hstack hts j h
    obtain ⟨hitems, hrest⟩ := stackKeyed_cons.mp hstack
    have hframe : FrameKeyed (.array (v :: items)) := List.forall_mem_cons.mpr ⟨hv, hitems⟩
    rw [finish] at h
    exact ih (stackKeyed_cons.mpr ⟨hframe, hrest⟩) hts.tail j h
  case nextField =>
    intro v fields name stack next ts ih hv hstack hts j h
    obtain ⟨⟨hnames, hfields⟩, hrest⟩ := stackKeyed_cons.mp hstack
    have hset := Keyed.set hnames hfields name hv
    have hframe : FrameKeyed (.object (replaceOrAppend name v fields) next) :=
      ⟨hset.nodup_fields, fun _ => hset.mem_fields⟩
    rw [finish] at h
    exact ih (stackKeyed_cons.mpr ⟨hframe, hrest⟩) hts.tail.tail.tail j h
  case endArray =>
    intro v ts items stack ih hv hstack hts j h
    obtain ⟨hitems, hrest⟩ := stackKeyed_cons.mp hstack
    rw [finish] at h
    refine ih (.array fun j hj => ?_) hrest hts.tail j h
    exact List.forall_mem_cons.mpr ⟨hv, hitems⟩ j (List.mem_reverse.mp hj)
  case endObject =>
    intro v ts fields name stack ih hv hstack hts j h
    obtain ⟨⟨hnames, hfields⟩, hrest⟩ := stackKeyed_cons.mp hstack
    rw [finish] at h
    exact ih (.set hnames hfields name hv) hrest hts.tail j h
  -- all other texts are refused
  case deepArray =>
    intro stack ts hclose hpush _ _ j h
    rw [readValue, hpush] at h
    · cases h
    · exact hclose
  case deepObject =>
    intro stack name ts hpush _ _ j h
    rw [readValue, hpush] at h
    cases h
  case noValue =>
    intro ts stack _ _ _ _ _ _ _ j h
    rw [readValue] at h
    · cases h
    all_goals assumption
  case openEnd =>
    intro v stack _ _ _ _ j h
    rw [finish] at h
    · cases h
    · assumption
  case noNext =>
    intro v stack ts _ _ _ _ _ j h
    rw [finish] at h
    · cases h
    all_goals assumption
  case noArray =>
    intro v stack ts _ _ _ _ j h
    rw [finish] at h
    · cases h
    · assumption
  case noObject =>
    intro v stack ts _ _ _ _ j h
    rw [finish] at h
    · cases h
    · assumption
  case noMark =>
    intro ts v stack _ _ _ _ _ _ _ j h
    rw [finish] at h
    · cases h
    all_goals assumption

/-- A tree that has been read has distinct names in each object. -/
theorem keyed_of_parse? {text : List Char} {j : Json} (h : parse? text = some j) : Keyed j := by
  obtain ⟨ts, hts, hread⟩ := Option.bind_eq_some_iff.mp h
  exact keyed_steps.1 [] ts (fun f hf => by cases hf) (tokensKeyed_of_tokens? hts) j hread

end ClockNet.Json

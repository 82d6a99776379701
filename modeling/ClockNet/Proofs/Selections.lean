import ClockNet.Proofs.SelectionWords

/-! # What a selection selects

The words of a selection stand for operations on a stack of sets, of pairs of a module and a wire or
of modules alone, and what is left on the stack is united. Selections are evaluated for one object
after another instead. That comes to the same, since whether an object is in a union, an
intersection or a difference depends on the two parts alone (`evaluate_iff`), and as no operator
lacks an operand there always is a result (`parsed_meaning`). -/

namespace ClockNet

namespace WirePattern

/-- What the pattern for a value says: a text is matched, a constant compared with its number and
its bits. -/
def Fits (expected : String) : Value → Prop
  | .text s => Glob.covers expected s = true
  | .const c => (∃ n, c.toNat? = some n ∧ toString n = expected) ∨ c.bits = expected

/-- What a pattern says of a wire. -/
def Matches (w : Wire) : WirePattern → Prop
  | named glob => Glob.covers glob w.name = true
  | input glob => w.isInput = true ∧ Glob.covers glob w.name = true
  | output glob => w.isOutput = true ∧ Glob.covers glob w.name = true
  | port glob => (w.isInput = true ∨ w.isOutput = true) ∧ Glob.covers glob w.name = true
  | tagged name none => ∃ v, w.attributes.get? name = some v
  | tagged name (some expected) => ∃ v, w.attributes.get? name = some v ∧ Fits expected v

theorem valueMatches_iff (expected : String) (v : Value) :
    valueMatches expected v = true ↔ Fits expected v := by
  cases v with
  | text s => exact Iff.rfl
  | const c =>
    unfold valueMatches Fits
    rw [Bool.or_eq_true, Option.any_eq_true, beq_iff_eq]
    simp only [beq_iff_eq]

theorem selects_iff_matches (w : Wire) (p : WirePattern) : p.selects w = true ↔ p.Matches w := by
  cases p with
  | named glob => exact Iff.rfl
  | input glob => exact Bool.and_eq_true_iff
  | output glob => exact Bool.and_eq_true_iff
  | port glob =>
    unfold selects Matches Wire.isPort
    rw [Bool.and_eq_true, Bool.or_eq_true]
  | tagged name expected =>
    cases expected with
    | none => exact Option.isSome_iff_exists
    | some expected =>
      unfold selects Matches
      rw [Option.any_eq_true]
      simp only [valueMatches_iff]

end WirePattern

namespace Selection

variable {w : SelectionWord}

/-! ## Evaluation over sets -/

section
variable {σ : Type} [BooleanAlgebra σ] (denotes : Option String → Option WirePattern → σ)

/-- The effect of one word on a stack of sets, topmost first. There is none if an operator finds
less than two. -/
def pushSet : List σ → SelectionWord → Option (List σ)
  | stack, .term part object => some (denotes part object :: stack)
  | b :: a :: rest, .union => some (a ⊔ b :: rest)
  | b :: a :: rest, .intersection => some (a ⊓ b :: rest)
  | b :: a :: rest, .difference => some (a \ b :: rest)
  | _, _ => none

/-- The final stack when all words are evaluated, each term as the set that it denotes. -/
def stackOf (s : Selection) : Option (List σ) := s.words.foldlM (pushSet denotes) []

theorem exists_pushSet {stack : List σ} {depth : Nat}
    (h : depthAfter stack.length w = some depth) :
    ∃ stack', pushSet denotes stack w = some stack' ∧ stack'.length = depth := by
  obtain ⟨hops, rfl⟩ := depthAfter_eq_some.mp h
  cases w with
  | term part object => exact ⟨_, rfl, rfl⟩
  | union | intersection | difference =>
    match stack, hops rfl with
    | b :: a :: rest, _ => exact ⟨_, rfl, rfl⟩

theorem exists_foldlM_pushSet {stack : List σ} {ws : List SelectionWord}
    (h : OperandsReady stack.length ws) :
    ∃ stack', ws.foldlM (pushSet denotes) stack = some stack' := by
  induction ws generalizing stack with
  | nil => exact ⟨stack, rfl⟩
  | cons w ws ih =>
    obtain ⟨depth, hdepth, hready⟩ := operandsReady_cons.mp h
    obtain ⟨stack', hpush, rfl⟩ := exists_pushSet denotes hdepth
    obtain ⟨last, hlast⟩ := ih hready
    refine ⟨last, ?_⟩
    rw [List.foldlM_cons, hpush]
    exact hlast

theorem exists_stackOf {s : Selection} (h : OperandsReady 0 s.words) :
    ∃ stack, s.stackOf denotes = some stack :=
  exists_foldlM_pushSet denotes h

end

/-! ## Objects and sets -/

/-- A test of sets that goes through unions, intersections and differences, as to have a member
does. -/
structure Tests {σ : Type} [BooleanAlgebra σ] (f : σ → Prop) : Prop where
  sup : ∀ a b, f (a ⊔ b) ↔ f a ∨ f b
  inf : ∀ a b, f (a ⊓ b) ↔ f a ∧ f b
  sdiff : ∀ a b, f (a \ b) ↔ f a ∧ ¬ f b

theorem tests_mem {α : Type} (x : α) : Tests fun A : Set α => x ∈ A where
  sup _ _ := Iff.rfl
  inf _ _ := Iff.rfl
  sdiff _ _ := Iff.rfl

theorem tests_true : Tests fun b : Bool => b = true where
  sup a b := by cases a <;> cases b <;> decide
  inf a b := by cases a <;> cases b <;> decide
  sdiff a b := by cases a <;> cases b <;> decide

section
variable {σ : Type} [BooleanAlgebra σ] {f : σ → Prop} {sets sets' : List σ} {stack : List Bool}
  {test : Option String → Option WirePattern → Bool}
  {denotes : Option String → Option WirePattern → σ}

/-- One object's memberships stay those in the sets on the stack, as a word is evaluated. -/
theorem forall₂_push (hf : Tests f) (hterm : ∀ part object, test part object = true ↔
      f (denotes part object)) (hstack : List.Forall₂ (fun b A => b = true ↔ f A) stack sets)
    (hpush : pushSet denotes sets w = some sets') :
    List.Forall₂ (fun b A => b = true ↔ f A) (push test stack w) sets' := by
  cases w with
  | term part object =>
    cases hpush
    exact .cons (hterm part object) hstack
  | union | intersection | difference =>
    cases hstack with
    | nil => cases hpush
    | cons hb hrest =>
      cases hrest with
      | nil => cases hpush
      | cons ha hrest =>
        cases hpush
        refine .cons ?_ hrest
        simp [hf.sup, hf.inf, hf.sdiff, ← ha, ← hb]

theorem forall₂_foldl_push (hf : Tests f) (hterm : ∀ part object, test part object = true ↔
      f (denotes part object)) {ws : List SelectionWord}
    (hstack : List.Forall₂ (fun b A => b = true ↔ f A) stack sets)
    (hsets : ws.foldlM (pushSet denotes) sets = some sets') :
    List.Forall₂ (fun b A => b = true ↔ f A) (ws.foldl (push test) stack) sets' := by
  induction ws generalizing stack sets with
  | nil => exact Option.some.inj hsets ▸ hstack
  | cons w ws ih =>
    rw [List.foldlM_cons] at hsets
    obtain ⟨next, hpush, hsets⟩ := Option.bind_eq_some_iff.mp hsets
    exact ih (forall₂_push hf hterm hstack hpush) hsets

/-- An object is a member in the end if it is one of a set that is left on the stack. -/
theorem evaluate_iff (hf : Tests f) {s : Selection}
    (hterm : ∀ part object, test part object = true ↔ f (denotes part object))
    (hsets : s.stackOf denotes = some sets) : s.evaluate test = true ↔ ∃ A ∈ sets, f A := by
  have hall := forall₂_foldl_push hf hterm .nil hsets
  unfold evaluate
  generalize s.words.foldl (push test) [] = stack at hall
  clear hsets
  induction hall with
  | nil => simp
  | cons hb _ ih =>
    rw [List.any_cons, Bool.or_eq_true, List.exists_mem_cons_iff]
    exact or_congr hb ih

end

/-- The wires that a term matches, each with its module. -/
def wiresMatched (part : Option String) (object : Option WirePattern) : Set (Module × Wire) :=
  {p | (∀ glob ∈ part, Glob.covers glob p.1.name = true) ∧ ∀ pattern ∈ object, pattern.Matches p.2}

/-- The modules that a term names, which it does not if it has an object. -/
def modulesMatched (part : Option String) : Option WirePattern → Set Module
  | none => {m | ∀ glob ∈ part, Glob.covers glob m.name = true}
  | some _ => ∅

theorem moduleMatches_iff (m : Module) (part : Option String) :
    moduleMatches m part = true ↔ ∀ glob ∈ part, Glob.covers glob m.name = true := by
  cases part with
  | none => simp [moduleMatches]
  | some glob => simp [moduleMatches]

/-- A text is read as a selection exactly if it has words, all of them are terms or operators, and
every operator finds two entries on the stack. Then evaluation never finds less. A wire is selected
exactly if it is, with its module, in the union of the sets of wires that are left when the same
words are evaluated over sets, and a module if it is in the union of the sets of modules, or if one
of its wires is selected. -/
theorem parsed_meaning (text : String) :
    (∀ s, parse text = .ok s ↔ ∃ texts, Text.Spaced text.toList texts ∧ texts ≠ [] ∧
      List.Forall₂ Written texts s.words ∧ OperandsReady 0 s.words) ∧
    ∀ s, parse text = .ok s →
      (∀ test : Option String → Option WirePattern → Bool, ∃ stack, s.stackOf test = some stack ∧
        (s.evaluate test = true ↔ true ∈ stack)) ∧
      (∃ sets, s.stackOf wiresMatched = some sets ∧
        ∀ m w, s.selectsWire m w = true ↔ (m, w) ∈ ⋃₀ {A | A ∈ sets}) ∧
      ∃ sets, s.stackOf modulesMatched = some sets ∧
        ∀ m, s.selectsModule m = true ↔
          m ∈ ⋃₀ {A | A ∈ sets} ∨ ∃ w ∈ m.wires, s.selectsWire m w = true := by
  refine ⟨fun s => parse_eq_ok, fun s h => ?_⟩
  obtain ⟨_, -, -, -, hready⟩ := parse_eq_ok.mp h
  refine ⟨fun test => ?_, ?_, ?_⟩
  · obtain ⟨stack, hstack⟩ := exists_stackOf test hready
    refine ⟨stack, hstack, (evaluate_iff tests_true (fun _ _ => Iff.rfl) hstack).trans ?_⟩
    simp
  · obtain ⟨sets, hsets⟩ := exists_stackOf wiresMatched hready
    refine ⟨sets, hsets, fun m w => ?_⟩
    refine (evaluate_iff (tests_mem (m, w)) (fun part object => ?_) hsets).trans Iff.rfl
    rw [Bool.and_eq_true, moduleMatches_iff]
    refine and_congr Iff.rfl ?_
    cases object with
    | none => simp
    | some pattern => simpa using WirePattern.selects_iff_matches w pattern
  · obtain ⟨sets, hsets⟩ := exists_stackOf modulesMatched hready
    refine ⟨sets, hsets, fun m => ?_⟩
    unfold selectsModule
    rw [Bool.or_eq_true, List.any_eq_true]
    refine or_congr ((evaluate_iff (tests_mem m) (fun part object => ?_) hsets).trans Iff.rfl)
      Iff.rfl
    cases object with
    | none =>
      rw [Bool.and_eq_true, moduleMatches_iff]
      simp [modulesMatched]
    | some pattern => simp [modulesMatched]

/-- A module with a clock that comes in and a net of its own. -/
def clockAndNet : Module where
  name := "top"
  wires := [{ name := "clk", width := 1, isInput := true, position := 1 },
    { name := "net", width := 1 }]
  ports := [0]

/-- Everything in a module but its inputs: the first operand is what the second is taken from. -/
theorem parsed_meaning_withoutInputs : ∃ s, parse "top/w:* i:* %d" = .ok s ∧
    ∃ sets, s.stackOf wiresMatched = some sets ∧
      (∃ A ∈ sets, (clockAndNet, clockAndNet.wire 1) ∈ A) ∧
      (∀ A ∈ sets, (clockAndNet, clockAndNet.wire 0) ∉ A) ∧
      s.selectsModule clockAndNet = true := by
  have hparse : parse "top/w:* i:* %d" =
      .ok ⟨[.term (some "top") (some (.named "*")), .term none (some (.input "*")), .difference]⟩ :=
    by cbv
  refine ⟨_, hparse, ?_⟩
  obtain ⟨-, ⟨sets, hsets, hwire⟩, _, -, hmodule⟩ := (parsed_meaning _).2 _ hparse
  have hnet := (hwire clockAndNet (clockAndNet.wire 1)).mp (by cbv)
  have hclock := (hwire clockAndNet (clockAndNet.wire 0)).not.mp (Bool.eq_false_iff.mp (by cbv))
  exact ⟨sets, hsets, hnet, fun A hA hin => hclock ⟨A, hA, hin⟩,
    (hmodule clockAndNet).mpr (.inr ⟨clockAndNet.wire 1, by decide, by cbv⟩)⟩

end Selection

end ClockNet

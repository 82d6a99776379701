/-! Reading in steps. A step takes input and returns a value with the input that is left;
a loop over steps ends because each step leaves less than it was given. -/

namespace ClockNet.Text

/-- Goes on with the result of a step, together with the fact that it is its result, from
which a loop learns that less input is left. -/
def andThen (x : Except ε α) (next : (a : α) → x = .ok a → Except ε β) : Except ε β :=
  match x, next with
  | .ok a, next => next a rfl
  | .error e, _ => .error e

@[simp] theorem andThen_ok (a : α) (next : (b : α) → Except.ok a = .ok b → Except ε β) :
    andThen (.ok a) next = next a rfl := rfl

@[simp] theorem andThen_error (e : ε) (next : (b : α) → Except.error e = .ok b → Except ε β) :
    andThen (.error e) next = .error e := rfl

theorem of_andThen_ok {x : Except ε α} {next : (a : α) → x = .ok a → Except ε β} {b : β}
    (h : andThen x next = .ok b) : ∃ a, ∃ hx : x = .ok a, next a hx = .ok b := by
  cases x with
  | ok a => exact ⟨a, rfl, h⟩
  | error e => cases h

/-- A sequence that succeeds has a first part that succeeds. -/
theorem of_bind_ok {x : Except ε α} {next : α → Except ε β} {b : β}
    (h : x >>= next = .ok b) : ∃ a, x = .ok a ∧ next a = .ok b := by
  cases x with
  | ok a => exact ⟨a, rfl, h⟩
  | error e => cases h

theorem map_eq_ok {x : Except ε α} {f : α → β} {b : β} :
    f <$> x = .ok b ↔ ∃ a, x = .ok a ∧ f a = b := by
  cases x with
  | ok a =>
    constructor
    · intro h
      exact ⟨a, rfl, Except.ok.inj h⟩
    · rintro ⟨a, h, rfl⟩
      cases h
      rfl
  | error e => exact iff_of_false (fun h => nomatch h) (fun ⟨_, h, _⟩ => nomatch h)

theorem of_mapError_ok {x : Except ε α} {f : ε → ε'} {a : α} (h : x.mapError f = .ok a) :
    x = .ok a := by
  cases x with
  | ok b =>
    cases h
    rfl
  | error e => cases h

/-- Where the fact is not needed, going on is the usual sequence. -/
theorem andThen_eq_bind (x : Except ε α) (next : α → Except ε β) :
    andThen x (fun a _ => next a) = x >>= next := by
  cases x <;> rfl

/-- Dropping characters leaves no more than there were. -/
theorem length_dropWhile_le (p : Char → Bool) (text : List Char) :
    (text.dropWhile p).length ≤ text.length :=
  (List.dropWhile_suffix p).length_le

end ClockNet.Text

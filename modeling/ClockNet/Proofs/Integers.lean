import ClockNet.Checked.Arithmetic
import ClockNet.Proofs.Chunks
import Mathlib.Algebra.BigOperators.Group.Finset.Basic
import Mathlib.Algebra.BigOperators.Ring.Finset
import Mathlib.Algebra.BigOperators.Intervals
import Mathlib.Tactic.Ring

/-! # Constants as numbers of 64 bits

A constant of any width is filled from a word and read back into one. No shift on the way leaves the
word (`ofWord_eq`, `toWord_eq`), what comes back is the number cut to the width and to 64 bits
(`toNat?_ofNat`), and a constant that is a number at all is the sum of the powers of two at its ones
(`toNat?_eq_some_iff`). In one width a number has one constant. -/

namespace ClockNet.Const

/-! ## Bits of a word -/

section
variable {w : UInt64} {place : Nat} (h : place < 64)
include h

theorem toNat_places : (UInt64.ofNat place).toNat % 64 = place := by
  rw [UInt64.toNat_ofNat_of_lt' (Nat.lt_trans h (by decide)), Nat.mod_eq_of_lt h]

theorem shiftRight_and_one (w : UInt64) :
    (w >>> UInt64.ofNat place &&& 1 == 1) = w.toNat.testBit place := by
  rw [Nat.testBit_eq_decide_div_mod_eq, Bool.eq_iff_iff, beq_iff_eq, decide_eq_true_iff,
    ← UInt64.toNat_inj, UInt64.toNat_and, UInt64.toNat_shiftRight, toNat_places h,
    UInt64.toNat_one, Nat.and_one_is_mod, Nat.shiftRight_eq_div_pow]

/-- A 1 is put at the end of the places read so far. -/
theorem toNat_or_bit (hw : w.toNat < 2 ^ place) :
    (w ||| 1 <<< UInt64.ofNat place).toNat = w.toNat + 2 ^ place := by
  have hbit : (1 <<< UInt64.ofNat place : UInt64).toNat = 2 ^ place := by
    rw [UInt64.toNat_shiftLeft, toNat_places h, UInt64.toNat_one, Nat.one_shiftLeft,
      Nat.mod_eq_of_lt (Nat.pow_lt_pow_right (by decide) h)]
  have hor := Nat.two_pow_add_eq_or_of_lt hw 1
  rw [Nat.mul_one] at hor
  rw [UInt64.toNat_or, hbit, Nat.or_comm, ← hor, Nat.add_comm]

end

/-! ## From a word -/

theorem wordBit_eq (v : UInt64) (place : Nat) :
    wordBit v place = .ok (place < 64 && v.toNat.testBit place) := by
  unfold wordBit
  split
  · rename_i h
    rw [Stepwise.shiftRight_ok h, decide_eq_true h, Bool.true_and, ← shiftRight_and_one h v]
    rfl
  · rename_i h
    rw [decide_eq_false h, Bool.false_and]

/-- Filling a constant shifts a word by less than its size only. -/
theorem ofWord_eq (v : UInt64) (width : Nat) : ofWord v width = .ok (ofNat v.toNat width) := by
  unfold ofWord ofNat
  simp only [wordBit_eq]
  exact List.mapM_pure

@[simp] theorem length_ofNat (n width : Nat) : (ofNat n width).length = width := by simp [ofNat]

theorem getElem?_ofNat (n width i : Nat) :
    (ofNat n width)[i]? =
      if i < width then some (.ofBool (i < 64 && n.testBit i)) else none := by
  unfold ofNat
  split
  · rename_i h
    simp [h]
  · rename_i h
    simp [Nat.le_of_not_lt h]

/-! ## Into a word -/

/-- A constant read into a word from a place on is no number: a bit is not known, or a 1 has no
place in the word. -/
def overruns (place : Nat) (c : Const) : Bool :=
  c.any (· == .unknown) || (c.drop (64 - place)).any (· == .one)

@[simp] theorem overruns_nil (place : Nat) : overruns place [] = false := by simp [overruns]

@[simp] theorem overruns_unknown (place : Nat) (c : Const) :
    overruns place (.unknown :: c) = true := by simp [overruns]

@[simp] theorem overruns_zero (place : Nat) (c : Const) :
    overruns place (.zero :: c) = overruns (place + 1) c := by
  unfold overruns
  rcases Nat.lt_or_ge place 64 with h | h
  · rw [show 64 - place = 64 - (place + 1) + 1 by omega]
    rfl
  · rw [show 64 - place = 0 by omega, show 64 - (place + 1) = 0 by omega]
    rfl

@[simp] theorem overruns_one (place : Nat) (c : Const) :
    overruns place (.one :: c) = (decide (64 ≤ place) || overruns (place + 1) c) := by
  unfold overruns
  rcases Nat.lt_or_ge place 64 with h | h
  · rw [show 64 - place = 64 - (place + 1) + 1 by omega, decide_eq_false (Nat.not_le.mpr h)]
    rfl
  · rw [show 64 - place = 0 by omega, decide_eq_true h]
    simp

theorem toNat?_eq (c : Const) : c.toNat? = if overruns 0 c then none else some c.value := rfl

/-- The loop from any place on: the word holds the places before, so each 1 adds its power. -/
theorem wordFrom_eq (c : Const) (w : UInt64) (place : Nat) (hw : w.toNat < 2 ^ place) :
    (wordFrom w place c).map (·.map UInt64.toNat) =
      .ok (if overruns place c then none else some (w.toNat + 2 ^ place * c.value)) := by
  induction c generalizing w place with
  | nil => simp [wordFrom, value, Except.map]
  | cons t rest ih =>
    have hnext : w.toNat < 2 ^ (place + 1) := by
      rw [Nat.pow_succ]
      omega
    cases t with
    | unknown => simp [wordFrom, Except.map]
    | zero =>
      rw [wordFrom, ih w (place + 1) hnext, overruns_zero, value]
      simp only [reduceCtorEq, if_false, Nat.zero_add, Nat.pow_succ, Nat.mul_assoc]
    | one =>
      rw [wordFrom, overruns_one]
      split
      · rename_i h
        simp [h, Except.map]
      · -- the places before are below the new power, so that it is added to them
        rename_i h
        have hword := toNat_or_bit (Nat.lt_of_not_le h) hw
        have hsum : w.toNat + 2 ^ place + 2 ^ (place + 1) * value rest =
            w.toNat + 2 ^ place * value (.one :: rest) := by
          simp only [value, if_true]
          ring
        rw [Stepwise.shiftLeft_ok (Nat.lt_of_not_le h), decide_eq_false h, Bool.false_or, ← hsum,
          ← hword]
        exact ih _ (place + 1) (by rw [hword, Nat.pow_succ]; omega)

theorem toWord_eq (c : Const) : (toWord c).map (·.map UInt64.toNat) = .ok c.toNat? := by
  rw [toWord, wordFrom_eq c 0 0 (by decide), toNat?_eq]
  simp

/-! ## The number -/

theorem value_eq_sum (bits : Const) :
    bits.value = ∑ i ∈ Finset.range bits.length with bits[i]? = some .one, 2 ^ i := by
  rw [Finset.sum_filter]
  induction bits with
  | nil => rfl
  | cons t rest ih =>
    rw [value, ih, List.length_cons, Finset.sum_range_succ', Finset.mul_sum, Nat.add_comm]
    simp only [List.getElem?_cons_succ, List.getElem?_cons_zero, Option.some.injEq, Nat.pow_zero,
      Nat.pow_succ, mul_comm 2, ite_mul, Nat.zero_mul]

/-- A constant is a number if each bit is known and no 1 is above the word. -/
theorem toNat?_eq_some_iff (bits : Const) (n : Nat) :
    bits.toNat? = some n ↔ .unknown ∉ bits ∧ (∀ i, 64 ≤ i → bits[i]? ≠ some .one) ∧
      n = ∑ i ∈ Finset.range bits.length with bits[i]? = some .one, 2 ^ i := by
  have hknown : bits.any (· == .unknown) = true ↔ .unknown ∈ bits := by simp
  have hhigh : (bits.drop 64).any (· == .one) = true ↔ ∃ i, 64 ≤ i ∧ bits[i]? = some .one := by
    simp only [List.any_eq_true, beq_iff_eq, exists_eq_right, List.mem_iff_getElem?,
      List.getElem?_drop]
    exact ⟨fun ⟨i, h⟩ => ⟨64 + i, by omega, h⟩,
      fun ⟨i, hi, h⟩ => ⟨i - 64, by rwa [show 64 + (i - 64) = i by omega]⟩⟩
  rw [toNat?, Option.ite_none_left_eq_some, Bool.or_eq_true, hknown, hhigh, ← value_eq_sum,
    Option.some.injEq, not_or, not_exists, and_assoc, eq_comm]
  simp only [not_and, ne_eq]

theorem getElem?_ofNat_eq_one (n width i : Nat) :
    (ofNat n width)[i]? = some .one ↔ i < min width 64 ∧ n.testBit i = true := by
  rw [getElem?_ofNat, Nat.lt_min, Option.ite_none_right_eq_some, Option.some.injEq, and_assoc,
    and_congr_right_iff]
  intro hi
  by_cases h : i < 64 <;> cases n.testBit i <;> simp [h, Trit.ofBool]

/-- The constant of a number holds its low bits, as far as the width and the word go. -/
theorem value_ofNat (n width : Nat) : (ofNat n width).value = n % 2 ^ min width 64 := by
  refine Nat.eq_of_testBit_eq fun i => ?_
  rw [testBit_value, Nat.testBit_mod_two_pow, Bool.eq_iff_iff, decide_eq_true_iff,
    getElem?_ofNat_eq_one, Bool.and_eq_true, decide_eq_true_iff]

theorem toNat?_ofNat (n width : Nat) :
    (ofNat n width).toNat? = some (n % 2 ^ min width 64) := by
  have hknown : .unknown ∉ ofNat n width := by
    intro h
    obtain ⟨i, -, hi⟩ := List.mem_map.mp h
    cases hbit : i < 64 && n.testBit i <;> rw [hbit] at hi <;> cases hi
  have hplace (i : Nat) (hi : 64 ≤ i) : (ofNat n width)[i]? ≠ some .one := by
    rw [ne_eq, getElem?_ofNat_eq_one]
    omega
  rw [toNat?_eq_some_iff, ← value_eq_sum, value_ofNat]
  exact ⟨hknown, hplace, rfl⟩

/-- In one width, a number is held by one constant. -/
theorem eq_of_toNat? {c c' : Const} {n : Nat} (hlength : c.length = c'.length)
    (h : c.toNat? = some n) (h' : c'.toNat? = some n) : c = c' := by
  rw [← ofNat_toNat? h, hlength, ofNat_toNat? h']

/-! ## All widths -/

/-- Constants of any width are exact about numbers: a word filled into a width comes back cut to
the width and to its own 64 bits, a constant is the number of its ones if it is one at all, and
that number in its width is the constant again. No shift on either way leaves the word. -/
theorem numbers_exact :
    (∀ (v : UInt64) (width : Nat), ofWord v width = .ok (ofNat v.toNat width) ∧
      (ofNat v.toNat width).length = width ∧
      (ofNat v.toNat width).toNat? = some (v.toNat % 2 ^ min width 64)) ∧
    (∀ c : Const, (toWord c).map (·.map UInt64.toNat) = .ok c.toNat?) ∧
    (∀ (bits : Const) (n : Nat), bits.toNat? = some n ↔
      .unknown ∉ bits ∧ (∀ i, 64 ≤ i → bits[i]? ≠ some .one) ∧
        n = ∑ i ∈ Finset.range bits.length with bits[i]? = some .one, 2 ^ i) ∧
    (∀ (c : Const) (n : Nat), c.toNat? = some n → ofNat n c.length = c) ∧
    (∀ (c c' : Const) (n : Nat), c.length = c'.length → c.toNat? = some n → c'.toNat? = some n →
      c = c') :=
  ⟨fun v width => ⟨ofWord_eq v width, length_ofNat _ _, toNat?_ofNat _ _⟩, toWord_eq,
    toNat?_eq_some_iff, fun _ _ => ofNat_toNat?, fun _ _ _ => eq_of_toNat?⟩

/-- Five in 66 bits, two more than a word has. -/
theorem numbers_exact_above_word :
    (toWord (.one :: .zero :: .one :: zero 63)).map (·.map UInt64.toNat) = .ok (some 5) ∧
      ofNat 5 66 = .one :: .zero :: .one :: zero 63 ∧
      ∀ c : Const, c.length = 66 → c.toNat? = some 5 → .one :: .zero :: .one :: zero 63 = c := by
  obtain ⟨-, hword, -, hback, hone⟩ := numbers_exact
  have hfive : toNat? (.one :: .zero :: .one :: zero 63) = some 5 := by decide
  refine ⟨(hword _).trans (congrArg _ hfive), hback _ 5 hfive, fun c hlength hc => ?_⟩
  exact hone _ c 5 hlength.symm hfive hc

end ClockNet.Const

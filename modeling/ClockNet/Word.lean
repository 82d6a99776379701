/-! Words of 64 bits, kept as integers. -/

namespace ClockNet

/-- Two to the 63: signed words lie below it, and not below its negative. -/
def signedLimit : Nat := 0x8000000000000000

/-- Two to the 64: unsigned words lie below it. -/
def unsignedLimit : Nat := 0x10000000000000000

/-- The signed word that an integer is congruent to. -/
def word (i : Int) : Int := i.bmod unsignedLimit

theorem word_eq {i : Int} (lower : -signedLimit ≤ i) (upper : i < signedLimit) : word i = i := by
  unfold word
  rw [Int.bmod_def]
  unfold signedLimit at lower upper
  unfold unsignedLimit
  split <;> omega

theorem word_bounds (i : Int) : -signedLimit ≤ word i ∧ word i < signedLimit := by
  unfold word
  rw [Int.bmod_def]
  unfold signedLimit unsignedLimit
  split <;> omega

end ClockNet

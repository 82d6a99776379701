import ClockNet.Constant
import ClockNet.Wire

/-! # Arithmetic on words, step by step

Numbers are read out of constants and into them by shifts of a 64-bit word, and indices of wires by
sums and differences of signed words. The plain functions give the result; here each shift and each
sum is taken for itself, in the order in which it is computed, and ends in an `Overrun` where it
leaves the word. -/

namespace ClockNet

def SignedWord (i : Int) : Prop := -signedLimit ≤ i ∧ i < signedLimit

instance : DecidablePred SignedWord := fun _ => inferInstanceAs (Decidable (_ ∧ _))

theorem signedWord_word (i : Int) : SignedWord (word i) := word_bounds i

theorem SignedWord.word_eq {i : Int} (h : SignedWord i) : word i = i := ClockNet.word_eq h.1 h.2

/-- A step of a computation that leaves the word it is made on. -/
inductive Overrun where
  /-- A shift by as many places as the word has, or more. -/
  | shift (places : Nat)
  /-- A sum or a difference that is no signed word. -/
  | sum (value : Int)
deriving DecidableEq, Inhabited

abbrev Stepwise := Except Overrun

namespace Stepwise

def shiftRight (v : UInt64) (places : Nat) : Stepwise UInt64 :=
  if places < 64 then .ok (v >>> UInt64.ofNat places) else .error (.shift places)

def shiftLeft (v : UInt64) (places : Nat) : Stepwise UInt64 :=
  if places < 64 then .ok (v <<< UInt64.ofNat places) else .error (.shift places)

/-- A sum or a difference of signed words, given by its exact value. -/
def signed (i : Int) : Stepwise Int := if SignedWord i then .ok i else .error (.sum i)

variable {v : UInt64} {places : Nat} {i : Int}

theorem shiftRight_ok (h : places < 64) :
    shiftRight v places = .ok (v >>> UInt64.ofNat places) := if_pos h

theorem shiftLeft_ok (h : places < 64) :
    shiftLeft v places = .ok (v <<< UInt64.ofNat places) := if_pos h

theorem signed_ok (h : SignedWord i) : signed i = .ok i := if_pos h

theorem signed_error (h : ¬ SignedWord i) : signed i = .error (.sum i) := if_neg h

end Stepwise

/-! ## Constants and words -/

namespace Const

/-- The bit of a word at a place; places from 64 on are not looked at. -/
def wordBit (v : UInt64) (place : Nat) : Stepwise Bool :=
  if place < 64 then do
    let low ← Stepwise.shiftRight v place
    .ok (low &&& 1 == 1)
  else .ok false

/-- The low `width` bits of a word. -/
def ofWord (v : UInt64) (width : Nat) : Stepwise Const :=
  (List.range width).mapM fun place => do
    let bit ← wordBit v place
    .ok (.ofBool bit)

/-- Reads the bits of a constant from a place on into a word. It ends early at a bit that is not
known, and at a 1 that the word has no place for. -/
def wordFrom (w : UInt64) (place : Nat) : Const → Stepwise (Option UInt64)
  | [] => .ok (some w)
  | .one :: rest =>
    if 64 ≤ place then .ok none
    else do
      let bit ← Stepwise.shiftLeft 1 place
      wordFrom (w ||| bit) (place + 1) rest
  | .zero :: rest => wordFrom w (place + 1) rest
  | .unknown :: _ => .ok none

/-- The word a constant stands for. -/
def toWord (c : Const) : Stepwise (Option UInt64) := wordFrom 0 0 c

end Const

/-! ## Wires and indices -/

namespace Wire

/-- The index of the least significant bit of a wire that is numbered from the most significant one
up. -/
def topIndex (w : Wire) : Stepwise Int := do
  let past ← Stepwise.signed (w.offset + word w.width)
  Stepwise.signed (past - 1)

/-- The index in source text of the bit at a place. -/
def indexStepwise (w : Wire) (place : Nat) : Stepwise Int :=
  if w.upto then do
    let top ← w.topIndex
    Stepwise.signed (top - word place)
  else Stepwise.signed (w.offset + word place)

def placeStepwise (w : Wire) (index : Int) : Stepwise (Option Nat) := do
  let place ←
    if w.upto then do
      let top ← w.topIndex
      Stepwise.signed (top - index)
    else Stepwise.signed (index - w.offset)
  .ok (if 0 ≤ place ∧ place < w.width then some place.toNat else none)

end Wire

end ClockNet

import ClockNet.Proofs.LoadedWires

/-! # Indices in source text

An index is computed from the offset of a wire by sums and differences, and a place from an index.
Both agree with the plain functions as long as each of them is a word (`indexStepwise_eq`,
`placeStepwise_ok`). Where one is not, the plain functions wrap around: the place that an index was
computed from still comes back (`placeOf_indexAt`), but so does a place for an index that lies two
to the 64 below that of a bit (`placeOf_eq_some_iff`), and the wires on which no step ever leaves
the word are few (`fitting_iff`). -/

namespace ClockNet.Wire

/-- The index of the bit at a place as a number, be it a word or not. -/
def exactIndex (w : Wire) (place : Nat) : Int :=
  if w.upto then w.offset + w.width - 1 - place else w.offset + place

/-- The greatest number on the way to the index of a place. -/
def highest (w : Wire) (place : Nat) : Int :=
  if w.upto then w.offset + w.width else w.offset + place

/-- Each number on the way from an index to a place is a word. -/
def Reaches (w : Wire) (index : Int) : Prop :=
  if w.upto then SignedWord (w.offset + w.width) ∧ SignedWord (w.offset + w.width - 1) ∧
    SignedWord (w.offset + w.width - 1 - index)
  else SignedWord (index - w.offset)

/-- Indices of the wire are exact: those of its bits are computed within words and give the places
back, and no other word has a place. -/
structure Fitting (w : Wire) : Prop where
  own : ∀ p < w.width, ∃ i, w.indexStepwise p = .ok i ∧ w.placeStepwise i = .ok (some p)
  foreign : ∀ i, SignedWord i → (∀ p < w.width, w.indexStepwise p ≠ .ok i) →
    w.placeStepwise i = .ok none

variable {w : Wire} {p : Nat} {i : Int}

theorem word_natCast {n : Nat} (h : n < signedLimit) : word n = n := by
  refine SignedWord.word_eq ⟨?_, ?_⟩ <;> omega

theorem signedWord_indexAt (w : Wire) (p : Nat) : SignedWord (w.indexAt p) := by
  unfold indexAt
  split <;> exact signedWord_word _

section
variable (h : w.upto = true)
include h

theorem exactIndex_of_upto (p : Nat) : w.exactIndex p = w.offset + w.width - 1 - p := if_pos h

theorem highest_of_upto (p : Nat) : w.highest p = w.offset + w.width := if_pos h

theorem reaches_of_upto (i : Int) : w.Reaches i ↔ SignedWord (w.offset + w.width) ∧
    SignedWord (w.offset + w.width - 1) ∧ SignedWord (w.offset + w.width - 1 - i) := by
  rw [Reaches, if_pos h]

end

section
variable (h : ¬ w.upto = true)
include h

theorem exactIndex_of_not_upto (p : Nat) : w.exactIndex p = w.offset + p := if_neg h

theorem highest_of_not_upto (p : Nat) : w.highest p = w.offset + p := if_neg h

theorem reaches_of_not_upto (i : Int) : w.Reaches i ↔ SignedWord (i - w.offset) := by
  rw [Reaches, if_neg h]

end

namespace Worded

/-! ## Steps that stay within words -/

theorem topIndex_ok (hw : w.Worded) (h : SignedWord (w.offset + w.width))
    (htop : SignedWord (w.offset + w.width - 1)) : w.topIndex = .ok (w.offset + w.width - 1) := by
  rw [topIndex, word_natCast hw.width, Stepwise.signed_ok h]
  exact Stepwise.signed_ok htop

theorem topIndex_error (hw : w.Worded)
    (h : ¬ (SignedWord (w.offset + w.width) ∧ SignedWord (w.offset + w.width - 1))) :
    ∃ sum, ¬ SignedWord sum ∧ w.topIndex = .error (.sum sum) := by
  rw [topIndex, word_natCast hw.width]
  by_cases hpast : SignedWord (w.offset + w.width)
  · have htop : ¬ SignedWord (w.offset + w.width - 1) := fun htop => h ⟨hpast, htop⟩
    rw [Stepwise.signed_ok hpast]
    exact ⟨_, htop, Stepwise.signed_error htop⟩
  · rw [Stepwise.signed_error hpast]
    exact ⟨_, hpast, rfl⟩

/-- An index is computed within words up to the signed limit. Beyond it the greatest of the numbers
is the first one to leave the word. -/
theorem indexStepwise_eq (hw : w.Worded) (hp : p < w.width) : w.indexStepwise p =
    if w.highest p < signedLimit then .ok (w.exactIndex p) else .error (.sum (w.highest p)) := by
  have hplace : word p = p := word_natCast (Nat.lt_trans hp hw.width)
  have hlower := hw.offset.1
  have hwidth := hw.width
  by_cases hup : w.upto = true
  · rw [indexStepwise, if_pos hup, hplace, highest_of_upto hup, exactIndex_of_upto hup]
    split
    · rw [hw.topIndex_ok ⟨by omega, by omega⟩ ⟨by omega, by omega⟩]
      exact Stepwise.signed_ok ⟨by omega, by omega⟩
    · rename_i hhigh
      rw [topIndex, word_natCast hwidth, Stepwise.signed_error fun h => hhigh h.2]
      rfl
  · rw [indexStepwise, if_neg hup, hplace, highest_of_not_upto hup, exactIndex_of_not_upto hup]
    split
    · exact Stepwise.signed_ok ⟨by omega, by omega⟩
    · rename_i hhigh
      exact Stepwise.signed_error fun h => hhigh h.2

theorem placeStepwise_ok (hw : w.Worded) (h : w.Reaches i) :
    w.placeStepwise i = .ok (w.placeOf i) := by
  unfold placeStepwise placeOf
  by_cases hup : w.upto = true
  · obtain ⟨hpast, htop, hplace⟩ := (reaches_of_upto hup i).mp h
    rw [if_pos hup, if_pos hup, hw.topIndex_ok hpast htop, hplace.word_eq]
    simp only [bind, Except.bind, Stepwise.signed_ok hplace]
  · have hplace := (reaches_of_not_upto hup i).mp h
    rw [if_neg hup, if_neg hup, hplace.word_eq, Stepwise.signed_ok hplace]
    rfl

theorem placeStepwise_error (hw : w.Worded) (h : ¬ w.Reaches i) :
    ∃ sum, ¬ SignedWord sum ∧ w.placeStepwise i = .error (.sum sum) := by
  unfold placeStepwise
  by_cases hup : w.upto = true
  · rw [reaches_of_upto hup] at h
    rw [if_pos hup]
    by_cases htop : SignedWord (w.offset + w.width) ∧ SignedWord (w.offset + w.width - 1)
    · have hplace : ¬ SignedWord (w.offset + w.width - 1 - i) := fun hp => h ⟨htop.1, htop.2, hp⟩
      refine ⟨_, hplace, ?_⟩
      rw [hw.topIndex_ok htop.1 htop.2]
      simp only [bind, Except.bind, Stepwise.signed_error hplace]
    · obtain ⟨sum, hsum, he⟩ := hw.topIndex_error htop
      exact ⟨sum, hsum, by rw [he]; rfl⟩
  · rw [reaches_of_not_upto hup] at h
    rw [if_neg hup, Stepwise.signed_error h]
    exact ⟨_, h, rfl⟩

/-! ## Indices that wrap around -/

/-- The index of a bit is the exact one, or lies two to the 64 below it. -/
theorem exactIndex_eq (hw : w.Worded) (hp : p < w.width) :
    w.exactIndex p = w.indexAt p ∨ w.exactIndex p = w.indexAt p + unsignedLimit := by
  obtain ⟨⟨hlower, hupper⟩, hwidth⟩ := hw
  unfold exactIndex indexAt word
  rw [Int.bmod_def, Int.bmod_def]
  unfold signedLimit at hlower hupper hwidth
  unfold unsignedLimit
  split <;> split <;> omega

/-- A word has the place of the bit of which it is the index, wrapped around or not. -/
theorem placeOf_eq_some_iff (hw : w.Worded) (hi : SignedWord i) : w.placeOf i = some p ↔
    p < w.width ∧ (w.exactIndex p = i ∨ w.exactIndex p = i + unsignedLimit) := by
  obtain ⟨⟨hlower, hupper⟩, hwidth⟩ := hw
  obtain ⟨hi, hi'⟩ := hi
  unfold signedLimit at hlower hupper hwidth hi hi'
  unfold placeOf exactIndex word
  dsimp only
  -- once the wrap is spelled out, both sides are comparisons of sums
  rw [Int.bmod_def, Int.bmod_def, Option.ite_none_right_eq_some, Option.some.injEq]
  unfold unsignedLimit
  by_cases hup : w.upto = true
  · simp only [hup, if_true]
    split <;> omega
  · simp only [hup, Bool.false_eq_true, if_false]
    split <;> omega

theorem placeOf_indexAt (hw : w.Worded) (hp : p < w.width) : w.placeOf (w.indexAt p) = some p :=
  (hw.placeOf_eq_some_iff (signedWord_indexAt w p)).mpr ⟨hp, hw.exactIndex_eq hp⟩

/-- Without checks, words are told apart from indices exactly if no index wraps around. -/
theorem placeOf_exact_iff (hw : w.Worded) :
    (∀ i p, SignedWord i → (w.placeOf i = some p ↔ p < w.width ∧ w.exactIndex p = i)) ↔
      ∀ p < w.width, w.exactIndex p < signedLimit := by
  constructor
  · intro h p hp
    have hback := ((h _ p (signedWord_indexAt w p)).mp (hw.placeOf_indexAt hp)).2
    exact hback ▸ (signedWord_indexAt w p).2
  · intro h i p hi
    rw [hw.placeOf_eq_some_iff hi]
    refine ⟨fun ⟨hp, he⟩ => ⟨hp, he.resolve_right fun he => ?_⟩, fun ⟨hp, he⟩ => ⟨hp, .inl he⟩⟩
    have hupper := h p hp
    have hlower := hi.1
    unfold signedLimit at hlower hupper
    unfold unsignedLimit at he
    omega

/-! ## Wires on which every step stays within words -/

theorem of_indexStepwise (hw : w.Worded) (hp : p < w.width) (h : w.indexStepwise p = .ok i) :
    w.highest p < signedLimit ∧ w.exactIndex p = i := by
  rw [hw.indexStepwise_eq hp] at h
  split at h
  · exact ⟨‹_›, Except.ok.inj h⟩
  · cases h

/-- Below the signed limit, an index and all numbers on the way back from it are words. -/
theorem reaches_exactIndex (hw : w.Worded) (hp : p < w.width) (h : w.highest p < signedLimit) :
    SignedWord (w.exactIndex p) ∧ w.Reaches (w.exactIndex p) := by
  have hlower := hw.offset.1
  have hwidth := hw.width
  by_cases hup : w.upto = true
  · rw [highest_of_upto hup] at h
    rw [reaches_of_upto hup, exactIndex_of_upto hup]
    exact ⟨⟨by omega, by omega⟩, ⟨by omega, by omega⟩, ⟨by omega, by omega⟩, ⟨by omega, by omega⟩⟩
  · rw [highest_of_not_upto hup] at h
    rw [reaches_of_not_upto hup, exactIndex_of_not_upto hup]
    exact ⟨⟨by omega, by omega⟩, ⟨by omega, by omega⟩⟩

/-- The index of a bit is computed, and the place back from it, exactly if the greatest number on
the way is a word. -/
theorem own_iff (hw : w.Worded) (hp : p < w.width) :
    (∃ i, w.indexStepwise p = .ok i ∧ w.placeStepwise i = .ok (some p)) ↔
      w.highest p < signedLimit := by
  constructor
  · rintro ⟨i, hindex, -⟩
    exact (hw.of_indexStepwise hp hindex).1
  · intro h
    obtain ⟨hword, hreaches⟩ := hw.reaches_exactIndex hp h
    refine ⟨_, (hw.indexStepwise_eq hp).trans (if_pos h), ?_⟩
    rw [hw.placeStepwise_ok hreaches, (hw.placeOf_eq_some_iff hword).mpr ⟨hp, .inl rfl⟩]

/-- On a fitting wire foreign words are subtracted within words as well. -/
theorem reaches_of_fitting (hw : w.Worded) (h : w.Fitting) (hi : SignedWord i)
    (hforeign : ∀ p < w.width, w.exactIndex p ≠ i) : w.Reaches i := by
  by_contra hreaches
  obtain ⟨sum, -, herror⟩ := hw.placeStepwise_error hreaches
  have hnone := h.foreign i hi fun p hp hindex =>
    hforeign p hp (hw.of_indexStepwise hp hindex).2
  rw [herror] at hnone
  cases hnone

/-- A wire is fitting if the way to its indices stays below the signed limit, and the one back from
any word within words. -/
theorem fitting_of_reaches (hw : w.Worded) (hown : ∀ p < w.width, w.highest p < signedLimit)
    (hreaches : ∀ i, SignedWord i → w.Reaches i) : w.Fitting where
  own p hp := (hw.own_iff hp).mpr (hown p hp)
  foreign i hi hforeign := by
    rw [hw.placeStepwise_ok (hreaches i hi)]
    have hexact := hw.placeOf_exact_iff.mpr fun p hp => (hw.reaches_exactIndex hp (hown p hp)).1.2
    cases hplace : w.placeOf i with
    | none => rfl
    | some p =>
      obtain ⟨hp, rfl⟩ := (hexact i p hi).mp hplace
      exact absurd ((hw.indexStepwise_eq hp).trans (if_pos (hown p hp))) (hforeign p hp)

/-- One end of the words is too far from the offset to be subtracted unless the offset is 0. Where
the most significant bit is numbered first, the same goes for the index past the last one. -/
theorem fitting_iff (hw : w.Worded) :
    w.Fitting ↔ if w.upto then w.offset + w.width = 0 else w.offset = 0 := by
  have hwidth := hw.width
  have hlowest : SignedWord (-signedLimit) := by decide
  have hgreatest : SignedWord (signedLimit - 1) := by decide
  by_cases hup : w.upto = true
  · rw [if_pos hup]
    constructor
    · intro h
      have hleast := hw.reaches_of_fitting h hlowest
      have hmost := hw.reaches_of_fitting h hgreatest
      simp only [reaches_of_upto hup, exactIndex_of_upto hup, SignedWord] at hleast hmost
      by_contra hne
      rcases Int.lt_or_gt_of_ne hne with hlt | hgt
      · have hback := (hmost fun p hp => by omega).2.2
        omega
      · have hback := (hleast fun p hp => by omega).2.2
        omega
    · intro h
      refine hw.fitting_of_reaches (fun p hp => ?_) fun i hi => ?_
      · rw [highest_of_upto hup, h]
        decide
      · rw [reaches_of_upto hup, h]
        obtain ⟨hi, hi'⟩ := hi
        exact ⟨by decide, by decide, ⟨by omega, by omega⟩⟩
  · rw [if_neg hup]
    constructor
    · intro h
      have hleast := hw.reaches_of_fitting h hlowest
      have hmost := hw.reaches_of_fitting h hgreatest
      simp only [reaches_of_not_upto hup, exactIndex_of_not_upto hup, SignedWord] at hleast hmost
      by_contra hne
      rcases Int.lt_or_gt_of_ne hne with hlt | hgt
      · have hback := hmost fun p hp => by omega
        omega
      · have hback := hleast fun p hp => by omega
        omega
    · intro h
      refine hw.fitting_of_reaches (fun p hp => ?_) fun i hi => ?_
      · rw [highest_of_not_upto hup, h]
        omega
      · rw [reaches_of_not_upto hup, h, Int.sub_zero]
        exact hi

end Worded

/-! ## Wires that are loaded -/

/-- What holds of the indices of a loaded wire. An index is computed exactly, and the place back
from it, as long as the greatest number on the way is a word; otherwise that number is the overrun.
Wrapped around, every index still gives back its place. But so does every word two to the 64 below
an index, so that other words are told apart from indices exactly if no index wraps around. The way
back from a word is within words or ends in an overrun, and only on few wires it is within words for
every word. -/
theorem indices_exact (h : w.Loaded) :
    (∀ p < w.width, w.indexStepwise p =
      if w.highest p < signedLimit then .ok (w.exactIndex p) else .error (.sum (w.highest p))) ∧
    (∀ p < w.width, (∃ i, w.indexStepwise p = .ok i ∧ w.placeStepwise i = .ok (some p)) ↔
      w.highest p < signedLimit) ∧
    (∀ p < w.width, w.placeOf (w.indexAt p) = some p) ∧
    (∀ i p, SignedWord i → (w.placeOf i = some p ↔
      p < w.width ∧ (w.exactIndex p = i ∨ w.exactIndex p = i + unsignedLimit))) ∧
    ((∀ i p, SignedWord i → (w.placeOf i = some p ↔ p < w.width ∧ w.exactIndex p = i)) ↔
      ∀ p < w.width, w.exactIndex p < signedLimit) ∧
    (∀ i, w.Reaches i ∧ w.placeStepwise i = .ok (w.placeOf i) ∨
      ¬ w.Reaches i ∧ ∃ sum, ¬ SignedWord sum ∧ w.placeStepwise i = .error (.sum sum)) ∧
    (w.Fitting ↔ if w.upto then w.offset + w.width = 0 else w.offset = 0) := by
  have hw := h.worded
  refine ⟨fun p hp => hw.indexStepwise_eq hp, fun p hp => hw.own_iff hp,
    fun p hp => hw.placeOf_indexAt hp, fun i p hi => hw.placeOf_eq_some_iff hi,
    hw.placeOf_exact_iff, fun i => ?_, hw.fitting_iff⟩
  by_cases hreaches : w.Reaches i
  · exact .inl ⟨hreaches, hw.placeStepwise_ok hreaches⟩
  · exact .inr ⟨hreaches, hw.placeStepwise_error hreaches⟩

/-- A wire whose least index is the greatest word, and a connection to an index that is none of its
own. -/
def edgeText : String := "module \\top\n  wire width 3 offset 9223372036854775807 \\a\n" ++
  "  connect \\a [-9223372036854775807] 1'1\nend\n"

def edgeWire : Wire := { name := "a", width := 3, offset := 9223372036854775807 }

def edgeDesign : Design := ⟨[{
  name := "top"
  wires := [edgeWire]
  connections := [([.wire 0 2], [.const .one])] }]⟩

section
open Rtlil

theorem parse_edgeText : Rtlil.parse edgeText = .ok edgeDesign := by
  have htokens : tokens edgeText.toList = .ok [⟨.word "module", 1⟩, ⟨.name "top", 1⟩,
      ⟨.word "wire", 2⟩, ⟨.word "width", 2⟩, ⟨.int 3, 2⟩, ⟨.word "offset", 2⟩,
      ⟨.int 9223372036854775807, 2⟩, ⟨.name "a", 2⟩, ⟨.word "connect", 3⟩, ⟨.name "a", 3⟩,
      ⟨.mark '[', 3⟩, ⟨.int (-9223372036854775807), 3⟩, ⟨.mark ']', 3⟩, ⟨.const [.one], 3⟩,
      ⟨.word "end", 4⟩] := by cbv
  have hplace : Wire.placeOf { name := "a", width := 3, offset := 9223372036854775807 }
      (-9223372036854775807) = some 2 := by decide
  rw [Rtlil.parse, htokens]
  change designBody 4 {} .empty _ = _
  simp [designBody, Rtlil.module, moduleBody, Rtlil.wire, wireShape, connection,
    signal, signalWithin, chunk, wireSlice, lastIndex, mark, identifier, natural, integer,
    Text.andThen_eq_bind, bind, Except.bind, Module.addWire?, Module.addWire, Module.findWire,
    Module.wire, Module.connect?, Module.connect, Design.find?, Design.add, hplace]
  cbv

end

theorem loaded_edgeWire : edgeWire.Loaded :=
  .text parse_edgeText (List.mem_singleton.mpr rfl) (List.mem_singleton.mpr rfl)

theorem indices_exact_edgeWire : edgeWire.Loaded ∧
    edgeWire.indexStepwise 0 = .ok 9223372036854775807 ∧
    edgeWire.placeOf (edgeWire.indexAt 2) = some 2 ∧ ¬ edgeWire.Fitting := by
  obtain ⟨hindex, -, hback, -, -, -, hfitting⟩ := indices_exact loaded_edgeWire
  refine ⟨loaded_edgeWire, ?_, hback 2 (by decide), fun h => ?_⟩
  · rw [hindex 0 (by decide)]
    decide
  · exact absurd (hfitting.mp h) (by decide)

/-- The index of the second bit is no word any more, and the index two to the 64 below that of the
third bit is taken for it. -/
theorem foreign_index_taken : Rtlil.parse edgeText = .ok edgeDesign ∧ edgeWire.Loaded ∧
    edgeWire.indexStepwise 1 = .error (.sum 9223372036854775808) ∧
    (∀ p < edgeWire.width, edgeWire.exactIndex p ≠ -9223372036854775807) ∧
    edgeWire.placeOf (-9223372036854775807) = some 2 ∧ ¬ ∀ w : Wire, w.Loaded → w.Fitting := by
  refine ⟨parse_edgeText, loaded_edgeWire, by decide, by decide, by decide, fun h => ?_⟩
  exact absurd (loaded_edgeWire.worded.fitting_iff.mp (h edgeWire loaded_edgeWire)) (by decide)

end ClockNet.Wire

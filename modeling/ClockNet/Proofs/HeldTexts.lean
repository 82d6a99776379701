import ClockNet.Attribute
import ClockNet.Proofs.Integers
import ClockNet.Proofs.Utf8

/-! # Texts held in constants

A text is put into a constant byte by byte, its last byte lowest, and zeros above it are padding.
Reading the bytes back drops each zero byte, wherever it stands; since no character but U+0000 has a
zero byte, what is left encodes the text without these (`filter_encode`), and decoding loses nothing
of it (`decodeLossy_encode`). -/

namespace ClockNet

/-! ## Bytes of constants -/

namespace Const

theorem ofByte_eq (b : UInt8) : ofByte b = ofNat b.toNat 8 := by
  refine List.map_congr_left fun i hi => ?_
  rw [decide_eq_true (Nat.lt_trans (List.mem_range.mp hi) (by decide)), Bool.true_and]

@[simp] theorem length_ofByte (b : UInt8) : (ofByte b).length = 8 := by
  rw [ofByte_eq, length_ofNat]

theorem bytes_append {c rest : Const} (h : c.length = 8) :
    bytes (c ++ rest) = toByte c :: bytes rest := by
  cases c with
  | nil => cases h
  | cons t c =>
    have hc : c.length = 7 := Nat.succ.inj h
    rw [List.cons_append, bytes, List.drop_left' hc, ← List.cons_append, toByte, toByte,
      List.take_left' h, List.take_of_length_le (Nat.le_of_eq h)]

theorem toByte_ofByte (b : UInt8) : toByte (ofByte b) = b := by
  rw [toByte, List.take_of_length_le (Nat.le_of_eq (length_ofByte b)), ofByte_eq, value_ofNat,
    show min 8 64 = 8 from rfl, Nat.mod_eq_of_lt b.toNat_lt, UInt8.ofNat_toNat]

theorem value_zero (width : Nat) : (zero width).value = 0 := by
  unfold zero
  induction width with
  | zero => rfl
  | succ n ih =>
    rw [List.replicate_succ, value, ih]
    rfl

theorem eq_zero_of_mem_bytes_zero {width : Nat} {b : UInt8} (h : b ∈ bytes (zero width)) :
    b = 0 := by
  induction width using Nat.strongRecOn with
  | ind width ih =>
    cases width with
    | zero => simp [zero, bytes] at h
    | succ n =>
      have hfirst : toByte (zero (n + 1)) = 0 := by
        rw [toByte, zero, List.take_replicate, ← zero, value_zero]
        rfl
      rw [zero, List.replicate_succ, bytes, ← List.replicate_succ, ← zero, hfirst,
        List.drop_replicate, ← zero] at h
      rcases List.mem_cons.mp h with rfl | h
      · rfl
      · exact ih (n - 7) (by omega) h

/-- The bytes of a constant that is made of bytes and padded. -/
theorem bytes_flatMap_ofByte (held : List UInt8) (padding : Const) :
    bytes (held.flatMap ofByte ++ padding) = held ++ bytes padding := by
  induction held with
  | nil => rfl
  | cons b rest ih =>
    rw [List.flatMap_cons, List.append_assoc, bytes_append (length_ofByte b), toByte_ofByte, ih]
    rfl

/-! ## Texts -/

theorem length_ofText (text : String) : (ofText text).length = 8 * text.utf8ByteSize := by
  rw [ofText, List.length_flatMap, ← Text.length_encode]
  simp [Nat.mul_comm]

theorem text_ofText_append_zero (text : String) (padding : Nat) :
    Const.text (ofText text ++ zero padding) =
      String.ofList (text.toList.filter (· ≠ '\x00')) := by
  have hpadding : (bytes (zero padding)).filter (· ≠ 0) = [] :=
    List.filter_eq_nil_iff.mpr fun b hb => by simp [eq_zero_of_mem_bytes_zero hb]
  rw [Const.text, ofText, bytes_flatMap_ofByte, List.filter_append, hpadding, List.append_nil,
    List.filter_reverse, List.reverse_reverse, Text.filter_encode, Text.decodeLossy_encode]

/-- A text held in a constant takes eight bits for each byte, and reads back without its characters
U+0000, also under any number of zeros. -/
theorem text_ofText (text : String) : (ofText text).length = 8 * text.utf8ByteSize ∧
    (ofText text).text = String.ofList (text.toList.filter (· ≠ '\x00')) ∧
    ∀ padding, Const.text (ofText text ++ zero padding) =
      String.ofList (text.toList.filter (· ≠ '\x00')) := by
  refine ⟨length_ofText text, ?_, text_ofText_append_zero text⟩
  have hbare := text_ofText_append_zero text 0
  rwa [show zero 0 = [] from rfl, List.append_nil] at hbare

end Const

end ClockNet

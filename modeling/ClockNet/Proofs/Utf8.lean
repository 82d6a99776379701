import ClockNet.Text.Utf8
import Mathlib.Tactic.SplitIfs

/-! # Bytes that encode texts

The bytes of a character are decoded to it, whatever follows them (`decodeRuns_encodeChar`), and
bytes that are decoded to a character are its bytes (`encodeChar_of_decodeRuns`): the ranges of the
bytes behind a first one leave out what is no character and what has fewer bytes. So a text is
decoded from exactly one run of bytes (`decode?_eq_some`). -/

namespace ClockNet

namespace Text

theorem leadByte_ascii : ∀ b < 128, leadByte (UInt8.ofNat b) = none := by decide

theorem leadByte_two :
    ∀ l < 32, 2 ≤ l → leadByte (UInt8.ofNat (l + 0xc0)) = some (1, 0x80, 0xbf) := by decide

/-- The lead byte E0 leaves out spellings that two bytes would do for, and ED the surrogates. -/
theorem leadByte_three : ∀ l < 16, leadByte (UInt8.ofNat (l + 0xe0)) =
    some (2, if l = 0 then 0xa0 else 0x80, if l = 13 then 0x9f else 0xbf) := by decide

/-- The lead byte F0 leaves out spellings that three bytes would do for, and F4 what is above the
last character. -/
theorem leadByte_four : ∀ l < 5, leadByte (UInt8.ofNat (l + 0xf0)) =
    some (3, if l = 0 then 0x90 else 0x80, if l = 4 then 0x8f else 0xbf) := by decide

theorem leadBits_two : ∀ l < 32, leadBits 1 (UInt8.ofNat (l + 0xc0)) = l := by decide

theorem leadBits_three : ∀ l < 16, leadBits 2 (UInt8.ofNat (l + 0xe0)) = l := by decide

theorem leadBits_four : ∀ l < 8, leadBits 3 (UInt8.ofNat (l + 0xf0)) = l := by decide

section
variable {code count l : Nat} {low high b : UInt8} {rest : List UInt8}

/-- A byte of six bits within its range goes onto the bits read so far. -/
theorem continued_succ (hl : l < 64) (hlow : low.toNat ≤ l + 0x80) (hhigh : l + 0x80 ≤ high.toNat) :
    continued code (count + 1) low high (UInt8.ofNat (l + 0x80) :: rest) =
      continued (code * 64 + l) count 0x80 0xbf rest := by
  have hb : (UInt8.ofNat (l + 0x80)).toNat = l + 0x80 :=
    UInt8.toNat_ofNat_of_lt' (show l + 0x80 < 256 by omega)
  have hrange : low ≤ UInt8.ofNat (l + 0x80) ∧ UInt8.ofNat (l + 0x80) ≤ high := by
    rw [UInt8.le_iff_toNat_le, UInt8.le_iff_toNat_le, hb]
    exact ⟨hlow, hhigh⟩
  rw [continued, if_pos (by simpa using hrange), hb, Nat.add_sub_cancel]

theorem continued_tail (hl : l < 64) :
    continued code (count + 1) 0x80 0xbf (UInt8.ofNat (l + 0x80) :: rest) =
      continued (code * 64 + l) count 0x80 0xbf rest :=
  continued_succ hl (Nat.le_add_left _ _) (by change _ ≤ 191; omega)

theorem decodeRuns_lead (h : leadByte b = some (count, low, high)) :
    decodeRuns (b :: rest) =
      (continued (leadBits count b) count low high rest).1.map Char.ofNat ::
        decodeRuns (continued (leadBits count b) count low high rest).2 := by
  have hb : ¬ b < 0x80 := by
    intro hlt
    have hascii := leadByte_ascii b.toNat (UInt8.lt_iff_toNat_lt.mp hlt)
    rw [UInt8.ofNat_toNat, h] at hascii
    cases hascii
  rw [decodeRuns, if_neg hb]
  simp only [h]

end

section
variable {v : Nat} {rest : List UInt8}

theorem decodeRuns_one (h : v ≤ 0x7f) :
    decodeRuns (UInt8.ofNat v :: rest) = some (Char.ofNat v) :: decodeRuns rest := by
  have hv : (UInt8.ofNat v).toNat = v := UInt8.toNat_ofNat_of_lt' (show v < 256 by omega)
  have hb : UInt8.ofNat v < 0x80 := by
    rw [UInt8.lt_iff_toNat_lt, hv]
    change v < 128
    omega
  rw [decodeRuns, if_pos hb, hv]

theorem decodeRuns_two (hlow : 0x7f < v) (hhigh : v ≤ 0x7ff) :
    decodeRuns (UInt8.ofNat (v / 64 % 32 + 0xc0) :: UInt8.ofNat (v % 64 + 0x80) :: rest) =
      some (Char.ofNat v) :: decodeRuns rest := by
  have hlead := leadByte_two (v / 64) (by omega) (by omega)
  rw [Nat.mod_eq_of_lt (show v / 64 < 32 by omega), decodeRuns_lead hlead,
    leadBits_two _ (by omega), continued_tail (Nat.mod_lt _ (by decide)), continued,
    show v / 64 * 64 + v % 64 = v by omega, Option.map_some]

theorem decodeRuns_three (hlow : 0x7ff < v) (hhigh : v ≤ 0xffff)
    (hchar : v < 0xd800 ∨ 0xdfff < v) :
    decodeRuns (UInt8.ofNat (v / 4096 % 16 + 0xe0) :: UInt8.ofNat (v / 64 % 64 + 0x80) ::
      UInt8.ofNat (v % 64 + 0x80) :: rest) = some (Char.ofNat v) :: decodeRuns rest := by
  have hlead := leadByte_three (v / 4096) (by omega)
  -- the byte behind E0 and behind ED is within its smaller range by the bounds on the character
  have hfirst : (if v / 4096 = 0 then 0xa0 else 0x80 : UInt8).toNat ≤ v / 64 % 64 + 0x80 := by
    split
    · change 0xa0 ≤ _
      omega
    · exact Nat.le_add_left _ _
  have hlast : v / 64 % 64 + 0x80 ≤ (if v / 4096 = 13 then 0x9f else 0xbf : UInt8).toNat := by
    split
    · change _ ≤ 0x9f
      omega
    · change _ ≤ 0xbf
      omega
  rw [Nat.mod_eq_of_lt (show v / 4096 < 16 by omega), decodeRuns_lead hlead,
    leadBits_three _ (by omega), continued_succ (Nat.mod_lt _ (by decide)) hfirst hlast,
    continued_tail (Nat.mod_lt _ (by decide)), continued,
    show (v / 4096 * 64 + v / 64 % 64) * 64 + v % 64 = v by omega, Option.map_some]

theorem decodeRuns_four (hlow : 0xffff < v) (hhigh : v < 0x110000) :
    decodeRuns (UInt8.ofNat (v / 262144 % 8 + 0xf0) :: UInt8.ofNat (v / 4096 % 64 + 0x80) ::
      UInt8.ofNat (v / 64 % 64 + 0x80) :: UInt8.ofNat (v % 64 + 0x80) :: rest) =
      some (Char.ofNat v) :: decodeRuns rest := by
  have hlead := leadByte_four (v / 262144) (by omega)
  -- so is the one behind F0 and behind F4
  have hfirst : (if v / 262144 = 0 then 0x90 else 0x80 : UInt8).toNat ≤ v / 4096 % 64 + 0x80 := by
    split
    · change 0x90 ≤ _
      omega
    · exact Nat.le_add_left _ _
  have hlast : v / 4096 % 64 + 0x80 ≤ (if v / 262144 = 4 then 0x8f else 0xbf : UInt8).toNat := by
    split
    · change _ ≤ 0x8f
      omega
    · change _ ≤ 0xbf
      omega
  rw [Nat.mod_eq_of_lt (show v / 262144 < 8 by omega), decodeRuns_lead hlead,
    leadBits_four _ (by omega), continued_succ (Nat.mod_lt _ (by decide)) hfirst hlast,
    continued_tail (Nat.mod_lt _ (by decide)), continued_tail (Nat.mod_lt _ (by decide)),
    continued, Option.map_some,
    show ((v / 262144 * 64 + v / 4096 % 64) * 64 + v / 64 % 64) * 64 + v % 64 = v by omega]

end

/-- Decoding takes a character off its bytes, and no byte more. -/
theorem decodeRuns_encodeChar (c : Char) (rest : List UInt8) :
    decodeRuns (String.utf8EncodeChar c ++ rest) = some c :: decodeRuns rest := by
  have hchar : Char.ofNat c.val.toNat = c := Char.ofNat_toNat c
  have hvalid : c.val.toNat < 0xd800 ∨ 0xdfff < c.val.toNat ∧ c.val.toNat < 0x110000 := c.valid
  rw [← congrArg some hchar]
  unfold String.utf8EncodeChar
  dsimp only
  split
  · exact decodeRuns_one ‹_›
  split
  · exact decodeRuns_two (Nat.lt_of_not_le ‹_›) ‹_›
  split
  · exact decodeRuns_three (Nat.lt_of_not_le ‹_›) ‹_› (by omega)
  · exact decodeRuns_four (Nat.lt_of_not_le ‹_›) (by omega)

theorem decodeRuns_encode (text : List Char) : decodeRuns (encode text) = text.map some := by
  induction text with
  | nil => simp [encode, decodeRuns]
  | cons c rest ih =>
    rw [encode, List.flatMap_cons, decodeRuns_encodeChar, List.map_cons]
    exact congrArg _ ih

/-- Bytes that encode a text decode to it, and none of them is replaced. -/
theorem decodeLossy_encode (text : List Char) : decodeLossy (encode text) = text := by
  unfold decodeLossy
  rw [decodeRuns_encode, List.map_map]
  exact List.map_id text

/-! ## Back to the bytes -/

theorem leadByte_none : (∀ l < 66, leadByte (UInt8.ofNat (l + 0x80)) = none) ∧
    ∀ l < 11, leadByte (UInt8.ofNat (l + 0xf5)) = none := by decide

/-- A first byte has one of three forms, by how many bytes follow it. -/
theorem leadByte_eq_some {count : Nat} {b low high : UInt8}
    (h : leadByte b = some (count, low, high)) :
    (∃ l < 32, 2 ≤ l ∧ b = UInt8.ofNat (l + 0xc0) ∧ (count, low, high) = (1, 0x80, 0xbf)) ∨
    (∃ l < 16, b = UInt8.ofNat (l + 0xe0) ∧ (count, low, high) =
      (2, if l = 0 then 0xa0 else 0x80, if l = 13 then 0x9f else 0xbf)) ∨
    (∃ l < 5, b = UInt8.ofNat (l + 0xf0) ∧ (count, low, high) =
      (3, if l = 0 then 0x90 else 0x80, if l = 4 then 0x8f else 0xbf)) := by
  have hb : ∀ n, n ≤ b.toNat → b = UInt8.ofNat (b.toNat - n + n) := fun n hn => by
    rw [Nat.sub_add_cancel hn, UInt8.ofNat_toNat]
  have hlt := b.toNat_lt
  rcases Nat.lt_or_ge b.toNat 0x80 with hascii | hhigh
  · rw [← UInt8.ofNat_toNat (x := b), leadByte_ascii _ hascii] at h
    cases h
  rcases Nat.lt_or_ge b.toNat 0xc2 with hfollows | htwo
  · rw [hb 0x80 hhigh, leadByte_none.1 _ (by omega)] at h
    cases h
  rcases Nat.lt_or_ge b.toNat 0xe0 with hl | hthree
  · have hform := hb 0xc0 (by omega)
    rw [hform, leadByte_two _ (by omega) (by omega)] at h
    exact .inl ⟨_, by omega, by omega, hform, (Option.some.inj h).symm⟩
  rcases Nat.lt_or_ge b.toNat 0xf0 with hl | hfour
  · have hform := hb 0xe0 hthree
    rw [hform, leadByte_three _ (by omega)] at h
    exact .inr (.inl ⟨_, by omega, hform, (Option.some.inj h).symm⟩)
  rcases Nat.lt_or_ge b.toNat 0xf5 with hl | hnone
  · have hform := hb 0xf0 hfour
    rw [hform, leadByte_four _ (by omega)] at h
    exact .inr (.inr ⟨_, by omega, hform, (Option.some.inj h).symm⟩)
  · rw [hb 0xf5 hnone, leadByte_none.2 _ (by omega)] at h
    cases h

/-- Where a byte is read onto the bits so far, it has six bits within its range. -/
theorem continued_eq_some {code count v : Nat} {low high : UInt8} {bytes rest : List UInt8}
    (hlow : 0x80 ≤ low.toNat) (hhigh : high.toNat ≤ 0xbf)
    (h : continued code (count + 1) low high bytes = (some v, rest)) :
    ∃ l < 64, low.toNat ≤ l + 0x80 ∧ l + 0x80 ≤ high.toNat ∧
      ∃ more, bytes = UInt8.ofNat (l + 0x80) :: more ∧
        continued (code * 64 + l) count 0x80 0xbf more = (some v, rest) := by
  cases bytes with
  | nil => cases h
  | cons b more =>
    rw [continued] at h
    split at h
    · rename_i hrange
      rw [Bool.and_eq_true, decide_eq_true_eq, decide_eq_true_eq, UInt8.le_iff_toNat_le,
        UInt8.le_iff_toNat_le] at hrange
      have hb : b.toNat - 0x80 + 0x80 = b.toNat := by omega
      refine ⟨b.toNat - 0x80, by omega, by omega, by omega, more, ?_, h⟩
      rw [hb, UInt8.ofNat_toNat]
    · cases h

theorem encodeChar_ofNat {v : Nat} (h : v.isValidChar) : String.utf8EncodeChar (Char.ofNat v) =
    if v ≤ 0x7f then [UInt8.ofNat v]
    else if v ≤ 0x7ff then [UInt8.ofNat (v / 64 % 32 + 0xc0), UInt8.ofNat (v % 64 + 0x80)]
    else if v ≤ 0xffff then [UInt8.ofNat (v / 4096 % 16 + 0xe0),
      UInt8.ofNat (v / 64 % 64 + 0x80), UInt8.ofNat (v % 64 + 0x80)]
    else [UInt8.ofNat (v / 262144 % 8 + 0xf0), UInt8.ofNat (v / 4096 % 64 + 0x80),
      UInt8.ofNat (v / 64 % 64 + 0x80), UInt8.ofNat (v % 64 + 0x80)] := by
  have hv : (Char.ofNat v).val.toNat = v := by
    rw [Char.ofNat, dif_pos h]
    rfl
  unfold String.utf8EncodeChar
  rw [hv]

section
variable {l k j i : Nat}

theorem encodeChar_two (hl : l < 32) (hmin : 2 ≤ l) (hk : k < 64) :
    String.utf8EncodeChar (Char.ofNat (l * 64 + k)) =
      [UInt8.ofNat (l + 0xc0), UInt8.ofNat (k + 0x80)] := by
  rw [encodeChar_ofNat (.inl (by omega)), if_neg (by omega), if_pos (by omega),
    show (l * 64 + k) / 64 % 32 = l by omega, show (l * 64 + k) % 64 = k by omega]

/-- The bounds of the second byte keep the surrogates and what two bytes encode away. -/
theorem encodeChar_three (hl : l < 16) (hk : k < 64) (hj : j < 64) (hmin : l = 0 → 0x20 ≤ k)
    (hmax : l = 13 → k ≤ 0x1f) : String.utf8EncodeChar (Char.ofNat ((l * 64 + k) * 64 + j)) =
      [UInt8.ofNat (l + 0xe0), UInt8.ofNat (k + 0x80), UInt8.ofNat (j + 0x80)] := by
  have hv : 0x7ff < (l * 64 + k) * 64 + j ∧
      ((l * 64 + k) * 64 + j < 0xd800 ∨ 0xdfff < (l * 64 + k) * 64 + j) := by
    omega
  rw [encodeChar_ofNat (hv.2.imp id fun hhigh => ⟨hhigh, by omega⟩), if_neg (by omega),
    if_neg (by omega), if_pos (by omega),
    show ((l * 64 + k) * 64 + j) / 4096 % 16 = l by omega,
    show ((l * 64 + k) * 64 + j) / 64 % 64 = k by omega,
    show ((l * 64 + k) * 64 + j) % 64 = j by omega]

/-- Here they keep what three bytes encode away, and what is above the last character. -/
theorem encodeChar_four (hl : l < 5) (hk : k < 64) (hj : j < 64) (hi : i < 64)
    (hmin : l = 0 → 0x10 ≤ k) (hmax : l = 4 → k ≤ 0xf) :
    String.utf8EncodeChar (Char.ofNat (((l * 64 + k) * 64 + j) * 64 + i)) =
      [UInt8.ofNat (l + 0xf0), UInt8.ofNat (k + 0x80), UInt8.ofNat (j + 0x80),
        UInt8.ofNat (i + 0x80)] := by
  have hv : 0xffff < ((l * 64 + k) * 64 + j) * 64 + i ∧
      ((l * 64 + k) * 64 + j) * 64 + i < 0x110000 := by
    omega
  rw [encodeChar_ofNat (.inr ⟨by omega, hv.2⟩), if_neg (by omega), if_neg (by omega),
    if_neg (by omega), show (((l * 64 + k) * 64 + j) * 64 + i) / 262144 % 8 = l by omega,
    show (((l * 64 + k) * 64 + j) * 64 + i) / 4096 % 64 = k by omega,
    show (((l * 64 + k) * 64 + j) * 64 + i) / 64 % 64 = j by omega,
    show (((l * 64 + k) * 64 + j) * 64 + i) % 64 = i by omega]

end

/-- A number that is read from a first byte and those that follow it is a character of these. -/
theorem encodeChar_of_continued {count v : Nat} {b low high : UInt8} {rest left : List UInt8}
    (hlead : leadByte b = some (count, low, high))
    (h : continued (leadBits count b) count low high rest = (some v, left)) :
    b :: rest = String.utf8EncodeChar (Char.ofNat v) ++ left := by
  rcases leadByte_eq_some hlead with ⟨l, hl, hmin, rfl, he⟩ | ⟨l, hl, rfl, he⟩ | ⟨l, hl, rfl, he⟩
  · cases he
    rw [leadBits_two l hl] at h
    obtain ⟨k, hk, -, -, more, rfl, hend⟩ := continued_eq_some (Nat.le_refl _) (Nat.le_refl _) h
    cases hend
    rw [encodeChar_two hl hmin hk]
    rfl
  · cases he
    rw [leadBits_three l hl] at h
    obtain ⟨k, hk, hkmin, hkmax, more, rfl, hnext⟩ :=
      continued_eq_some (by split <;> decide) (by split <;> decide) h
    obtain ⟨j, hj, -, -, more, rfl, hend⟩ :=
      continued_eq_some (Nat.le_refl _) (Nat.le_refl _) hnext
    cases hend
    rw [encodeChar_three hl hk hj]
    · rfl
    · rintro rfl
      have hkmin : 0xa0 ≤ k + 0x80 := hkmin
      omega
    · rintro rfl
      exact Nat.le_of_add_le_add_right hkmax
  · cases he
    rw [leadBits_four l (by omega)] at h
    obtain ⟨k, hk, hkmin, hkmax, more, rfl, hnext⟩ :=
      continued_eq_some (by split <;> decide) (by split <;> decide) h
    obtain ⟨j, hj, -, -, more, rfl, hlast⟩ :=
      continued_eq_some (Nat.le_refl _) (Nat.le_refl _) hnext
    obtain ⟨i, hi, -, -, more, rfl, hend⟩ :=
      continued_eq_some (Nat.le_refl _) (Nat.le_refl _) hlast
    cases hend
    rw [encodeChar_four hl hk hj hi]
    · rfl
    · rintro rfl
      have hkmin : 0x90 ≤ k + 0x80 := hkmin
      omega
    · rintro rfl
      exact Nat.le_of_add_le_add_right hkmax

/-- Bytes that are decoded to a character first are the bytes of it and what is left. -/
theorem encodeChar_of_decodeRuns {bytes : List UInt8} {c : Char} {runs : List (Option Char)}
    (h : decodeRuns bytes = some c :: runs) :
    ∃ rest, bytes = String.utf8EncodeChar c ++ rest ∧ decodeRuns rest = runs := by
  cases bytes with
  | nil =>
    rw [decodeRuns] at h
    cases h
  | cons b rest =>
    rw [decodeRuns] at h
    split at h
    · rename_i hb
      obtain ⟨hc, hruns⟩ := List.cons.inj h
      have hlt : b.toNat < 128 := UInt8.lt_iff_toNat_lt.mp hb
      refine ⟨rest, ?_, hruns⟩
      rw [← Option.some.inj hc, encodeChar_ofNat (.inl (by omega)), if_pos (by omega),
        UInt8.ofNat_toNat]
      rfl
    split at h
    · cases h
    rename_i count low high hlead
    obtain ⟨hc, hruns⟩ := List.cons.inj h
    obtain ⟨v, hv, rfl⟩ := Option.map_eq_some_iff.mp hc
    exact ⟨_, encodeChar_of_continued hlead (Prod.ext hv rfl), hruns⟩

theorem encode_of_decodeRuns {bytes : List UInt8} {text : List Char}
    (h : decodeRuns bytes = text.map some) : bytes = encode text := by
  induction text generalizing bytes with
  | nil =>
    cases bytes with
    | nil => rfl
    | cons b rest =>
      rw [decodeRuns] at h
      split at h
      · cases h
      · split at h <;> cases h
  | cons c text ih =>
    obtain ⟨rest, rfl, hrest⟩ := encodeChar_of_decodeRuns h
    rw [ih hrest]
    rfl

/-- Bytes are decoded to a text exactly if they encode it. -/
theorem decode?_eq_some {bytes : List UInt8} {text : List Char} :
    decode? bytes = some text ↔ bytes = encode text := by
  have hruns : ∀ (runs : List (Option Char)) (text : List Char),
      runs.mapM id = some text ↔ runs = text.map some := by
    intro runs
    induction runs with
    | nil => intro text; cases text <;> simp
    | cons run rest ih =>
      intro text
      rw [List.mapM_cons]
      cases run with
      | none => cases text <;> simp
      | some c => cases hrest : rest.mapM id <;> cases text <;> simp [← ih, hrest]
  rw [decode?, hruns]
  constructor
  · exact encode_of_decodeRuns
  · rintro rfl
    exact decodeRuns_encode text

theorem length_encode (text : String) : (encode text.toList).length = text.utf8ByteSize := by
  rw [← String.size_toByteArray, ← String.utf8Encode_toList, List.utf8Encode,
    List.size_toByteArray]
  rfl

theorem ne_zero_of_mem_encodeChar {c : Char} {b : UInt8} (hc : c ≠ '\x00')
    (hb : b ∈ String.utf8EncodeChar c) : b ≠ 0 := by
  have hpos : c.val.toNat ≠ 0 := fun h => hc (Char.ext (UInt32.toNat_inj.mp h))
  have hbyte {n : Nat} (hlow : 0 < n) (hhigh : n < 256) : UInt8.ofNat n ≠ 0 := by
    rw [ne_eq, ← UInt8.toNat_inj, UInt8.toNat_ofNat_of_lt' hhigh]
    exact Nat.ne_of_gt hlow
  unfold String.utf8EncodeChar at hb
  dsimp only at hb
  split at hb
  · obtain rfl := List.mem_singleton.mp hb
    exact hbyte (by omega) (by omega)
  split at hb
  · simp only [List.mem_cons, List.not_mem_nil, or_false] at hb
    rcases hb with rfl | rfl <;> exact hbyte (by omega) (by omega)
  split at hb
  · simp only [List.mem_cons, List.not_mem_nil, or_false] at hb
    rcases hb with rfl | rfl | rfl <;> exact hbyte (by omega) (by omega)
  · simp only [List.mem_cons, List.not_mem_nil, or_false] at hb
    rcases hb with rfl | rfl | rfl | rfl <;> exact hbyte (by omega) (by omega)

/-- Only U+0000 has a zero byte. -/
theorem filter_encode (text : List Char) :
    (encode text).filter (· ≠ 0) = encode (text.filter (· ≠ '\x00')) := by
  induction text with
  | nil => rfl
  | cons c rest ih =>
    unfold encode at ih ⊢
    rw [List.flatMap_cons, List.filter_append, ih]
    by_cases hc : c = '\x00'
    · subst hc
      rfl
    · have hkept : (String.utf8EncodeChar c).filter (· ≠ 0) = String.utf8EncodeChar c :=
        List.filter_eq_self.mpr fun b hb => decide_eq_true (ne_zero_of_mem_encodeChar hc hb)
      have htext : (c :: rest).filter (· ≠ '\x00') = c :: rest.filter (· ≠ '\x00') :=
        List.filter_cons_of_pos (decide_eq_true hc)
      rw [hkept, htext, List.flatMap_cons]

end Text

end ClockNet

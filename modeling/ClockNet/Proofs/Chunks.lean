import ClockNet.Signal
import ClockNet.Wire
import Mathlib.Data.List.SplitBy
import Mathlib.Tactic.ByContra

/-! # Constants, chunks and indices

What a netlist text says of a signal determines it. A constant is given by its characters, and one
that is a number by the number and its width (`ofChars?_toChars`, `ofNat_toNat?`). A chunk is a run
of constants or of consecutive places of one wire (`isChunk_of_mem_chunks`), and as long as the
indices of a wire are words, an index gives back the place that it was computed from
(`placeOf_indexAt`). -/

namespace ClockNet

/-! ## Constants as numbers -/

namespace Const

theorem testBit_value (bits : Const) (i : Nat) :
    bits.value.testBit i = decide (bits[i]? = some .one) := by
  induction bits generalizing i with
  | nil => simp [value]
  | cons t rest ih =>
    cases i with
    | zero =>
      rw [Nat.testBit_zero, value]
      cases t <;> simp
    | succ i =>
      have hhalf : value (t :: rest) / 2 = value rest := by
        rw [value]
        split <;> omega
      rw [Nat.testBit_succ, hhalf, ih, List.getElem?_cons_succ]

theorem ofNat_toNat? {bits : Const} {n : Nat} (h : bits.toNat? = some n) :
    ofNat n bits.length = bits := by
  unfold toNat? at h
  split at h
  · cases h
  rename_i hknown
  obtain rfl := Option.some.inj h
  simp only [Bool.or_eq_true, List.any_eq_true, beq_iff_eq, not_or, not_exists, not_and] at hknown
  obtain ⟨hknown, hhigh⟩ := hknown
  refine List.ext_getElem (by simp [ofNat]) fun i hi hc => ?_
  have hunknown : bits[i] ≠ .unknown := hknown _ (List.getElem_mem hc)
  have hplace : bits[i] = .one → i < 64 := by
    intro hone
    by_contra hge
    refine hhigh bits[i] ?_ hone
    rw [List.mem_iff_getElem]
    refine ⟨i - 64, by rw [List.length_drop]; omega, ?_⟩
    rw [List.getElem_drop]
    simp only [show 64 + (i - 64) = i by omega]
  simp only [ofNat, List.getElem_map, List.getElem_range, testBit_value,
    List.getElem?_eq_getElem hc, Option.some.injEq]
  cases ht : bits[i] with
  | unknown => exact absurd ht hunknown
  | zero => simp [Trit.ofBool]
  | one => simp [Trit.ofBool, hplace ht]

theorem ofChars?_toChars (c : Const) : ofChars? c.toChars = some c := by
  unfold ofChars? toChars
  rw [List.reverse_reverse]
  induction c with
  | nil => rfl
  | cons t rest ih => simp [Trit.ofChar?_toChar, ih]

end Const

/-! ## Chunks -/

namespace Signal

/-- A run of constants, or of consecutive places of a wire; it is not empty. -/
inductive IsChunk : Signal → Prop where
  | consts (t : Trit) (c : Const) : IsChunk (ofConst (t :: c))
  | places (id : WireId) (low count : Nat) :
      IsChunk ((List.range' low (count + 1)).map (Bit.wire id))

theorem IsChunk.single (b : Bit) : IsChunk [b] := by
  cases b with
  | const t => exact .consts t []
  | wire id i => exact .places id i 0

theorem IsChunk.ne_nil {chunk : Signal} (h : IsChunk chunk) : chunk ≠ [] := by
  cases h <;> simp [ofConst]

/-- A chunk grows at its low end by a bit that it goes on from. -/
theorem IsChunk.cons {b next : Bit} {chunk : Signal} (h : IsChunk (next :: chunk))
    (hb : b.continues next = true) : IsChunk (b :: next :: chunk) := by
  generalize hs : next :: chunk = s at h
  cases h with
  | consts t c =>
    obtain ⟨rfl, -⟩ := List.cons.inj hs
    cases b with
    | const t' => exact .consts t' (t :: c)
    | wire id i => cases hb
  | places id low count =>
    rw [List.range'_succ, List.map_cons] at hs
    obtain ⟨rfl, -⟩ := List.cons.inj hs
    cases b with
    | const t => cases hb
    | wire id' i =>
      simp only [Bit.continues, Bool.and_eq_true, beq_iff_eq] at hb
      obtain ⟨rfl, rfl⟩ := hb
      exact .places id' i (count + 1)

theorem isChunk_of_mem_chunks {s chunk : Signal} (h : chunk ∈ s.chunks) : IsChunk chunk := by
  induction s generalizing chunk with
  | nil => cases h
  | cons b rest ih =>
    simp only [chunks] at h
    unfold consChunk at h
    split at h
    · rename_i next first others hrest
      have hfirst : IsChunk (next :: first) := ih (hrest ▸ List.mem_cons_self)
      split at h
      · rename_i hb
        rcases List.mem_cons.mp h with rfl | h
        · exact hfirst.cons hb
        · exact ih (hrest ▸ List.mem_cons_of_mem _ h)
      · rcases List.mem_cons.mp h with rfl | h
        · exact .single b
        · exact ih (hrest ▸ h)
    · rcases List.mem_cons.mp h with rfl | h
      · exact .single b
      · exact ih h

theorem mem_of_mem_chunks {s chunk : Signal} {b : Bit} (h : chunk ∈ s.chunks) (hb : b ∈ chunk) :
    b ∈ s := flatten_chunks s ▸ List.mem_flatten_of_mem h hb

/-- Nothing goes on from one chunk to the next one. -/
def Apart (chunk next : Signal) : Prop :=
  ∃ hc hn, Bit.continues (chunk.getLast hc) (next.head hn) = false

/-- Chunks do not go on into each other, before and after a bit is put before them. -/
theorem isChain_apart_consChunk {b : Bit} {parts : List Signal} (h : parts.IsChain Apart)
    (hn : [] ∉ parts) : (consChunk b parts).IsChain Apart := by
  unfold consChunk
  split
  · rename_i next chunk rest
    split
    · rw [List.isChain_cons] at h ⊢
      refine ⟨fun part hpart => ?_, h.2⟩
      obtain ⟨_, hpart, hgap⟩ := h.1 part hpart
      refine ⟨List.cons_ne_nil _ _, hpart, ?_⟩
      rw [List.getLast_cons (List.cons_ne_nil next chunk)]
      exact hgap
    · rename_i hb
      exact List.isChain_cons_cons.mpr
        ⟨⟨List.cons_ne_nil _ _, List.cons_ne_nil _ _, Bool.eq_false_iff.mpr hb⟩, h⟩
  · cases parts with
    | nil => exact List.isChain_singleton _
    | cons part rest =>
      cases part with
      | nil => exact absurd List.mem_cons_self hn
      | cons next chunk =>
        rename_i hno
        exact absurd rfl (hno next chunk rest)

theorem isChain_apart_chunks (s : Signal) : s.chunks.IsChain Apart := by
  induction s with
  | nil => exact List.isChain_nil
  | cons b rest ih =>
    exact isChain_apart_consChunk ih fun h => (isChunk_of_mem_chunks h).ne_nil rfl

theorem IsChunk.isChain {chunk : Signal} (h : IsChunk chunk) :
    chunk.IsChain fun a b => a.continues b = true := by
  cases h with
  | consts t c =>
    unfold ofConst
    rw [List.isChain_map]
    exact (List.pairwise_of_forall fun _ _ => rfl).isChain
  | places id low count =>
    rw [List.isChain_map]
    exact (List.isChain_range' low (count + 1) 1).imp fun i j hij => by
      simp [Bit.continues, hij]

/-- Chunks are the one way to split a signal where a bit does not go on from the one before. -/
theorem chunks_eq_splitBy (s : Signal) : s.chunks = s.splitBy Bit.continues := by
  refine (List.splitBy_eq_iff.mpr ⟨(flatten_chunks s).symm, ?_, ?_, isChain_apart_chunks s⟩).symm
  · exact fun h => (isChunk_of_mem_chunks h).ne_nil rfl
  · exact fun chunk h => (isChunk_of_mem_chunks h).isChain

/-- Parts that are runs, none of them empty, and do not go on into each other are the chunks. -/
theorem chunks_flatten {parts : List Signal} (hn : [] ∉ parts)
    (hruns : ∀ part ∈ parts, part.IsChain fun a b => a.continues b = true)
    (hapart : parts.IsChain Apart) : chunks parts.flatten = parts :=
  (chunks_eq_splitBy _).trans (List.splitBy_flatten hn hruns hapart)

end Signal

/-! ## Indices -/

namespace Wire

/-- The offset and every index of the wire lie strictly between the signed limits, and its width
is a signed word. -/
structure Numbered (w : Wire) : Prop where
  lower : -signedLimit < w.offset
  upper : w.offset < signedLimit
  last : w.offset + w.width ≤ signedLimit
  width : w.width < signedLimit

instance (w : Wire) : Decidable w.Numbered :=
  decidable_of_iff (-signedLimit < w.offset ∧ w.offset < signedLimit ∧
      w.offset + w.width ≤ signedLimit ∧ w.width < signedLimit)
    ⟨fun ⟨h₁, h₂, h₃, h₄⟩ => ⟨h₁, h₂, h₃, h₄⟩, fun h => ⟨h.1, h.2, h.3, h.4⟩⟩

section
variable {w : Wire} {i : Nat}

theorem Numbered.indexAt (h : w.Numbered) (hi : i < w.width) : w.indexAt i =
    if w.upto then w.offset + w.width - 1 - i else w.offset + i := by
  obtain ⟨hlower, hupper, hlast, hwidth⟩ := h
  unfold Wire.indexAt
  split
  · exact word_eq (by omega) (by omega)
  · exact word_eq (by omega) (by omega)

theorem Numbered.natAbs_indexAt (h : w.Numbered) (hi : i < w.width) :
    (w.indexAt i).natAbs < signedLimit := by
  rw [h.indexAt hi]
  obtain ⟨hlower, hupper, hlast, hwidth⟩ := h
  split <;> omega

theorem Numbered.placeOf_indexAt (h : w.Numbered) (hi : i < w.width) :
    w.placeOf (w.indexAt i) = some i := by
  have hword : word i = i := word_eq (by omega) (by have := h.width; omega)
  have hplace : (if w.upto then word (w.offset + w.width - 1 - w.indexAt i)
      else word (w.indexAt i - w.offset)) = i := by
    rw [h.indexAt hi]
    split
    · rw [show w.offset + w.width - 1 - (w.offset + w.width - 1 - i) = (i : Int) by omega, hword]
    · rw [show w.offset + i - w.offset = (i : Int) by omega, hword]
  unfold placeOf
  simp only [hplace]
  rw [if_pos (by omega), Int.toNat_natCast]

end

end Wire

end ClockNet

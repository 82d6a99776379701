import ClockNet.Text.Split
import Mathlib.Data.List.TakeDrop
import Mathlib.Data.List.TakeWhile

/-! # Parts of a text

A text is cut at the first separator where it has one (`splitAtFirst_eq_some`), and its words are
the longest runs of characters without white space, in order (`spaced_iff`). -/

namespace ClockNet.Text

variable {separator : Char} {text before after gap word rest : List Char}
  {ws : List (List Char)}

/-! ## The first separator -/

theorem splitAtFirst_eq_none : splitAtFirst separator text = none ↔ separator ∉ text := by
  unfold splitAtFirst
  rw [List.span_eq_takeWhile_dropWhile]
  cases h : text.dropWhile (· != separator) with
  | nil =>
    have hall := List.dropWhile_eq_nil_iff.mp h
    exact iff_of_true rfl fun hmem => by simpa using hall separator hmem
  | cons c rest =>
    refine iff_of_false (by simp) fun hout => ?_
    have hall : text.dropWhile (· != separator) = [] :=
      List.dropWhile_eq_nil_iff.mpr fun x hx => bne_iff_ne.mpr (ne_of_mem_of_not_mem hx hout)
    rw [hall] at h
    cases h

theorem splitAtFirst_eq_some : splitAtFirst separator text = some (before, after) ↔
    separator ∉ before ∧ text = before ++ separator :: after := by
  unfold splitAtFirst
  rw [List.span_eq_takeWhile_dropWhile]
  constructor
  · intro h
    have hsplit := List.takeWhile_append_dropWhile (p := (· != separator)) (l := text)
    cases hd : text.dropWhile (· != separator) with
    | nil =>
      rw [hd] at h
      cases h
    | cons c rest =>
      rw [hd] at h hsplit
      obtain ⟨rfl, rfl⟩ := Prod.mk.inj (Option.some.inj h)
      have hc : c = separator := by
        have hfirst := List.head?_dropWhile_not (· != separator) text
        rw [hd] at hfirst
        simpa using hfirst
      subst hc
      refine ⟨fun hmem => ?_, hsplit.symm⟩
      have hne := List.mem_takeWhile_imp hmem
      simp at hne
  · intro h
    obtain ⟨hout, rfl⟩ := h
    have hbefore : ∀ c ∈ before, (c != separator) = true := fun c hc =>
      bne_iff_ne.mpr fun he => hout (he ▸ hc)
    rw [List.takeWhile_append_of_pos hbefore, List.dropWhile_append_of_pos hbefore]
    simp

/-! ## Words -/

/-- The text is made of the words, in order, with white space between them and perhaps around. -/
inductive Spaced : List Char → List (List Char) → Prop where
  | blank {gap : List Char} (hgap : ∀ c ∈ gap, isBlank c = true) : Spaced gap []
  | word {gap word rest : List Char} {ws : List (List Char)} (hgap : ∀ c ∈ gap, isBlank c = true)
      (hne : word ≠ []) (hword : ∀ c ∈ word, isBlank c = false)
      (hend : ∀ c ∈ rest.head?, isBlank c = true) (h : Spaced rest ws) :
      Spaced (gap ++ (word ++ rest)) (word :: ws)

theorem words_gap (hgap : ∀ c ∈ gap, isBlank c = true) : words (gap ++ text) = words text := by
  induction gap with
  | nil => rfl
  | cons c gap ih =>
    have hc : isBlank c = true := hgap c List.mem_cons_self
    have hrest := ih fun d hd => hgap d (List.mem_cons_of_mem _ hd)
    unfold words at hrest ⊢
    rw [List.cons_append, pieces, if_pos hc]
    simpa using hrest

/-- A run without white space is one piece with what follows it up to the next white space. -/
theorem pieces_run (hword : ∀ c ∈ word, isBlank c = false) {piece : List Char}
    (h : pieces isBlank rest = piece :: ws) :
    pieces isBlank (word ++ rest) = (word ++ piece) :: ws := by
  induction word with
  | nil => exact h
  | cons c word ih =>
    have hc : isBlank c = false := hword c List.mem_cons_self
    rw [List.cons_append, pieces, hc, if_neg Bool.false_ne_true,
      ih fun d hd => hword d (List.mem_cons_of_mem _ hd)]
    rfl

theorem words_run (hne : word ≠ []) (hword : ∀ c ∈ word, isBlank c = false)
    (hend : ∀ c ∈ rest.head?, isBlank c = true) : words (word ++ rest) = word :: words rest := by
  unfold words
  cases rest with
  | nil =>
    rw [pieces_run hword rfl]
    simp [hne, pieces]
  | cons c rest =>
    have hc : isBlank c = true := hend c rfl
    have hpieces : pieces isBlank (c :: rest) = [] :: pieces isBlank rest := by
      rw [pieces, if_pos hc]
    rw [pieces_run hword hpieces, hpieces]
    simp [hne]

theorem words_of_spaced (h : Spaced text ws) : words text = ws := by
  induction h with
  | @blank gap hgap =>
    rw [← List.append_nil gap, words_gap hgap]
    rfl
  | word hgap hne hword hend _ ih => rw [words_gap hgap, words_run hne hword hend, ih]

theorem exists_spaced (text : List Char) : ∃ ws, Spaced text ws := by
  induction h : text.length using Nat.strong_induction_on generalizing text with
  | _ n ih =>
    have hgap : ∀ c ∈ text.takeWhile isBlank, isBlank c = true := fun _ => List.mem_takeWhile_imp
    obtain ⟨later, hlater⟩ : ∃ later, later = text.dropWhile isBlank := ⟨_, rfl⟩
    have htext : text.takeWhile isBlank ++ later = text :=
      hlater ▸ List.takeWhile_append_dropWhile
    cases later with
    | nil =>
      rw [List.append_nil] at htext
      exact ⟨[], .blank (htext ▸ hgap)⟩
    | cons c later =>
      have hc : isBlank c = false := by
        have hfirst := List.head?_dropWhile_not isBlank text
        rw [← hlater] at hfirst
        simpa using hfirst
      have hword : ∀ d ∈ c :: later.takeWhile (!isBlank ·), isBlank d = false := by
        intro d hd
        rcases List.mem_cons.mp hd with rfl | hd
        · exact hc
        · simpa using List.mem_takeWhile_imp hd
      have hend : ∀ d ∈ (later.dropWhile (!isBlank ·)).head?, isBlank d = true := by
        intro d hd
        have hfirst := List.head?_dropWhile_not (!isBlank ·) later
        rw [Option.mem_def.mp hd] at hfirst
        simpa using hfirst
      have hshort : (later.dropWhile (!isBlank ·)).length < n := by
        have hle := (List.dropWhile_suffix (!isBlank ·) (l := later)).length_le
        have hlength := congrArg List.length htext
        rw [List.length_append, List.length_cons, h] at hlength
        omega
      obtain ⟨ws, hws⟩ := ih _ hshort _ rfl
      refine ⟨(c :: later.takeWhile (!isBlank ·)) :: ws, ?_⟩
      have hall := Spaced.word hgap (List.cons_ne_nil _ _) hword hend hws
      rwa [List.cons_append, List.takeWhile_append_dropWhile, htext] at hall

theorem spaced_iff : Spaced text ws ↔ words text = ws := by
  refine ⟨words_of_spaced, ?_⟩
  rintro rfl
  obtain ⟨ws, h⟩ := exists_spaced text
  rwa [words_of_spaced h]

end ClockNet.Text

import ClockNet.Glob
import Mathlib

/-! # What a pattern matches

A pattern fits a text if the text can be cut into runs, one for each character of the pattern
(`Fits`). Matching has one rule more: a star of the pattern that meets a star of the text takes
that one and nothing else (`Taken`). Only the last star that was passed is ever given more. This
is enough, since from a later place in the text a pattern never gets to its next star sooner
(`holds_of_later`), so matching finds whatever the rules allow (`matchChars_iff`). Without stars in
the pattern or without stars in the text it finds all that fits, and otherwise it does not
(`covers_exact`). -/

namespace ClockNet.Glob

variable {pattern text rest : List Char} {p t : Char}

/-! ## Fitting -/

/-- The runs that a character of a pattern stands for. -/
def StandsFor (p : Char) (run : List Char) : Prop :=
  if p = '*' then True else if p = '?' then run.length = 1 else run = [p]

/-- The text can be cut into runs, one for each character of the pattern, in their order. -/
def Fits (pattern text : List Char) : Prop :=
  ∃ runs : List (List Char), List.Forall₂ StandsFor pattern runs ∧ runs.flatten = text

theorem fits_nil : Fits [] text ↔ text = [] := by
  constructor
  · rintro ⟨runs, hruns, rfl⟩
    cases hruns
    rfl
  · rintro rfl
    exact ⟨[], .nil, rfl⟩

theorem fits_cons : Fits (p :: pattern) text ↔
    ∃ run rest, StandsFor p run ∧ Fits pattern rest ∧ run ++ rest = text := by
  constructor
  · rintro ⟨runs, hruns, rfl⟩
    cases hruns with
    | @cons _ run _ runs hp hruns =>
      exact ⟨run, runs.flatten, hp, ⟨runs, hruns, rfl⟩, rfl⟩
  · rintro ⟨run, rest, hp, ⟨runs, hruns, rfl⟩, rfl⟩
    exact ⟨run :: runs, .cons hp hruns, rfl⟩

theorem standsFor_self (c : Char) : StandsFor c [c] := by
  unfold StandsFor
  split
  · trivial
  · split <;> rfl

/-- Without a star each character of a pattern stands for one. -/
theorem length_of_fits (h : Fits pattern text) (hp : '*' ∉ pattern) :
    text.length = pattern.length := by
  induction pattern generalizing text with
  | nil => rw [fits_nil.mp h]
  | cons p pattern ih =>
    obtain ⟨run, rest, hrun, hrest, rfl⟩ := fits_cons.mp h
    rw [List.mem_cons, not_or] at hp
    have hone : run.length = 1 := by
      unfold StandsFor at hrun
      rw [if_neg (Ne.symm hp.1)] at hrun
      split at hrun
      · exact hrun
      · rw [hrun]
        rfl
    rw [List.length_append, hone, ih hrest hp.2, List.length_cons, Nat.add_comm]

theorem fits_append {before before' after after' : List Char} (h : Fits before before')
    (h' : Fits after after') : Fits (before ++ after) (before' ++ after') := by
  obtain ⟨runs, hruns, rfl⟩ := h
  obtain ⟨runs', hruns', rfl⟩ := h'
  exact ⟨runs ++ runs', List.rel_append hruns hruns', List.flatten_append⟩

theorem fits_self (text : List Char) : Fits text text := by
  induction text with
  | nil => exact fits_nil.mpr rfl
  | cons c text ih => exact fits_cons.mpr ⟨[c], text, standsFor_self c, ih, rfl⟩

theorem fits_star (run : List Char) (h : Fits pattern text) :
    Fits ('*' :: pattern) (run ++ text) :=
  fits_cons.mpr ⟨run, text, by simp [StandsFor], h, rfl⟩

/-! ## Taking a star for a star -/

/-- A pattern is matched from left to right, where a star that meets a star takes it alone. -/
inductive Taken : List Char → List Char → Prop where
  | done : Taken [] []
  | any {pattern text : List Char} (c : Char) (h : Taken pattern text) :
      Taken ('?' :: pattern) (c :: text)
  | same {pattern text : List Char} (c : Char) (h : Taken pattern text) :
      Taken (c :: pattern) (c :: text)
  | run {pattern text rest : List Char} (hrest : rest <:+ text) (hstar : text.head? ≠ some '*')
      (h : Taken pattern rest) : Taken ('*' :: pattern) text

theorem Taken.fits (h : Taken pattern text) : Fits pattern text := by
  induction h with
  | done => exact fits_nil.mpr rfl
  | any c _ ih => exact fits_cons.mpr ⟨[c], _, by simp [StandsFor], ih, rfl⟩
  | same c _ ih => exact fits_cons.mpr ⟨[c], _, standsFor_self c, ih, rfl⟩
  | run hrest _ _ ih =>
    obtain ⟨skipped, rfl⟩ := hrest
    exact fits_star skipped ih

/-- Where no star can meet a star, a pattern takes whatever it fits. -/
theorem taken_of_fits (h : Fits pattern text) (hstar : '*' ∉ pattern ∨ '*' ∉ text) :
    Taken pattern text := by
  induction pattern generalizing text with
  | nil => exact fits_nil.mp h ▸ .done
  | cons p pattern ih =>
    obtain ⟨run, rest, hrun, hrest, rfl⟩ := fits_cons.mp h
    have htaken : Taken pattern rest := by
      refine ih hrest (hstar.imp (fun hp hmem => ?_) fun ht hmem => ?_)
      · exact hp (List.mem_cons_of_mem _ hmem)
      · exact ht (List.mem_append_right _ hmem)
    by_cases hp : p = '*'
    · subst hp
      have hnone : '*' ∉ run ++ rest := hstar.resolve_left fun hp => hp List.mem_cons_self
      exact .run (List.suffix_append _ _) (fun hhead => hnone (List.mem_of_mem_head? hhead)) htaken
    · unfold StandsFor at hrun
      rw [if_neg hp] at hrun
      split at hrun
      · rename_i hany
        subst hany
        obtain ⟨c, rfl⟩ := List.length_eq_one_iff.mp hrun
        exact .any c htaken
      · subst hrun
        exact .same p htaken

theorem taken_nil : Taken pattern [] ↔ onlyStars pattern = true := by
  unfold onlyStars
  induction pattern with
  | nil => exact ⟨fun _ => rfl, fun _ => .done⟩
  | cons p pattern ih =>
    rw [List.all_cons, Bool.and_eq_true, ← ih, beq_iff_eq]
    constructor
    · intro h
      cases h with
      | run hrest _ h => exact ⟨rfl, List.suffix_nil.mp hrest ▸ h⟩
    · rintro ⟨rfl, h⟩
      exact .run (List.suffix_refl _) (by simp) h

/-- A character that stands for the next one of the text takes it. -/
theorem taken_next (h : p = '?' ∨ p = t) :
    Taken (p :: pattern) (t :: text) ↔ Taken pattern text := by
  constructor
  · intro htaken
    cases htaken with
    | any _ h => exact h
    | same _ h => exact h
    | run _ hstar _ =>
      rcases h with h | rfl
      · cases h
      · exact absurd rfl hstar
  · intro htaken
    rcases h with rfl | rfl
    · exact .any t htaken
    · exact .same p htaken

/-- A star that meets no star leaves some end of the text to the rest of the pattern. -/
theorem taken_star (h : t ≠ '*') : Taken ('*' :: pattern) (t :: text) ↔
    ∃ rest, rest <:+ t :: text ∧ Taken pattern rest := by
  constructor
  · intro htaken
    cases htaken with
    | same _ _ => exact absurd rfl h
    | run hrest _ htaken => exact ⟨_, hrest, htaken⟩
  · rintro ⟨rest, hrest, htaken⟩
    exact .run hrest (by simpa using h) htaken

theorem not_taken (hany : ¬ (p = '?' ∨ p = t)) (hstar : p ≠ '*') :
    ¬ Taken (p :: pattern) (t :: text) := by
  intro htaken
  cases htaken with
  | any _ _ => exact hany (.inl rfl)
  | same _ _ => exact hany (.inr rfl)
  | run _ _ _ => exact hstar rfl

/-! ## Going back to the last star -/

/-- What a run along the text has left can be matched. -/
def Run.Holds : Run → Prop
  | .ended pattern => onlyStars pattern = true
  | .star pattern text => ∃ rest, rest <:+ text ∧ Taken pattern rest
  | .stuck => False

theorem taken_iff_holds (pattern text : List Char) :
    Taken pattern text ↔ (run pattern text).Holds := by
  fun_induction run pattern text with
  | case1 pattern => exact taken_nil
  | case2 t text => exact iff_of_false (fun h => nomatch h) id
  | case3 p pattern t text h ih => rw [taken_next (by simpa using h), ih]
  | case4 pattern t text h =>
    have ht : t ≠ '*' := by
      rintro rfl
      exact h (by simp)
    exact taken_star ht
  | case5 p pattern t text h hstar => exact iff_of_false (not_taken (by simpa using h) hstar) id

/-- A match that begins further on in the text is one that the run from here has left: up to the
next star, or to the end, every character of the pattern stands no further on here than there. -/
theorem holds_of_later (h : Taken pattern rest) (hrest : rest <:+ text)
    (hrun : run pattern text ≠ .stuck) : (run pattern text).Holds := by
  fun_induction run pattern text generalizing rest with
  | case1 pattern => exact taken_nil.mp (List.suffix_nil.mp hrest ▸ h)
  | case2 t text => exact absurd rfl hrun
  | case3 p pattern t text hp ih =>
    rcases List.suffix_cons_iff.mp hrest with rfl | hrest
    · exact ih ((taken_next (by simpa using hp)).mp h) (List.suffix_refl _) hrun
    · cases h with
      | any c h => exact ih h ((List.suffix_cons c _).trans hrest) hrun
      | same _ h => exact ih h ((List.suffix_cons _ _).trans hrest) hrun
      | run hskipped _ h => exact ih h (hskipped.trans hrest) hrun
  | case4 pattern t text hp =>
    cases h with
    | same _ h => exact ⟨_, (List.suffix_cons _ _).trans hrest, h⟩
    | run hskipped _ h => exact ⟨_, hskipped.trans hrest, h⟩
  | case5 => exact absurd rfl hrun

/-- Unless it is stuck at once, a match that begins here or further on is found from here. -/
theorem holds_iff (hrun : run pattern text ≠ .stuck) :
    (run pattern text).Holds ↔ ∃ rest, rest <:+ text ∧ Taken pattern rest := by
  refine ⟨fun h => ⟨text, List.suffix_refl _, (taken_iff_holds pattern text).mpr h⟩, ?_⟩
  rintro ⟨rest, hrest, h⟩
  exact holds_of_later h hrest hrun

/-- Behind a star some end of the text is found that the rest of the pattern takes, if there is
one. -/
theorem matchAfterStar_iff (pattern text : List Char) :
    matchAfterStar pattern text = true ↔ ∃ rest, rest <:+ text ∧ Taken pattern rest := by
  fun_induction matchAfterStar pattern text with
  | case1 pattern text rest hrun =>
    have hholds := holds_iff (by rw [hrun]; exact Run.noConfusion)
    rwa [hrun] at hholds
  | case2 pattern text pattern' text' hrun ih =>
    have hholds := holds_iff (by rw [hrun]; exact Run.noConfusion)
    rw [hrun] at hholds
    exact ih.trans hholds
  | case3 pattern hrun =>
    simp [run] at hrun
  | case4 pattern t text hrun ih =>
    rw [ih]
    constructor
    · rintro ⟨rest, hrest, h⟩
      exact ⟨rest, hrest.trans (List.suffix_cons t text), h⟩
    · rintro ⟨rest, hrest, h⟩
      rcases List.suffix_cons_iff.mp hrest with rfl | hrest
      · rw [taken_iff_holds, hrun] at h
        exact h.elim
      · exact ⟨rest, hrest, h⟩

theorem matchChars_iff (pattern text : List Char) :
    matchChars pattern text = true ↔ Taken pattern text := by
  rw [taken_iff_holds, matchChars]
  cases run pattern text with
  | ended rest => exact Iff.rfl
  | star pattern' text' => exact matchAfterStar_iff pattern' text'
  | stuck => exact iff_of_false Bool.false_ne_true id

/-! ## The search by places -/

/-- A cursor stands before the rest of the pattern and the rest of the text. -/
structure Cursor.Before (c : Cursor) (pattern text restPattern restText : List Char) : Prop where
  pattern_le : c.pattern ≤ pattern.length
  pattern_drop : pattern.drop c.pattern = restPattern
  text_le : c.text ≤ text.length
  text_drop : text.drop c.text = restText

theorem of_drop_eq_cons {l rest : List Char} {n : Nat} {c : Char} (h : l.drop n = c :: rest) :
    n < l.length ∧ l[n]? = some c ∧ l.drop (n + 1) = rest := by
  have hget : l[n]? = some c := by
    rw [← List.head?_drop, h]
    rfl
  refine ⟨(List.getElem?_eq_some_iff.mp hget).1, hget, ?_⟩
  rw [← List.tail_drop, h]
  rfl

/-- What a search gives whose cursor stands where a run begins: it goes on as the run does, and
where that is stuck it goes back to the last star. -/
def Cursor.Follows (c : Cursor) (pattern text : List Char) : Run → Prop
  | .ended rest => c.search pattern text = some (onlyStars rest)
  | .star pattern' text' => ∃ p t,
    Cursor.Before ⟨p + 1, t, some (p, t)⟩ pattern text pattern' text' ∧
      c.search pattern text = Cursor.search ⟨p + 1, t, some (p, t)⟩ pattern text
  | .stuck => (c.star = none → c.search pattern text = some false) ∧
    ∀ p t, c.star = some (p, t) →
      c.search pattern text = Cursor.search ⟨p + 1, t + 1, some (p, t + 1)⟩ pattern text

section
variable {restPattern restText : List Char} {c : Cursor}

theorem Cursor.Follows.of_eq {c' : Cursor} {r : Run} (h : c'.Follows pattern text r)
    (hsearch : c.search pattern text = c'.search pattern text) (hstar : c.star = c'.star) :
    c.Follows pattern text r := by
  cases r with
  | ended rest => exact hsearch.trans h
  | star pattern' text' =>
    obtain ⟨p, t, hbefore, h⟩ := h
    exact ⟨p, t, hbefore, hsearch.trans h⟩
  | stuck =>
    unfold Follows at h ⊢
    rwa [hsearch, hstar]

/-- A mismatch without a star that could take the character. -/
theorem Cursor.Follows.of_mismatch (hlt : c.text < text.length)
    (hnext : ¬ (c.pattern < pattern.length ∧
      (pattern[c.pattern]? = some '?' ∨ pattern[c.pattern]? = text[c.text]?)))
    (hstar : pattern[c.pattern]? ≠ some '*') : c.Follows pattern text .stuck := by
  refine ⟨fun hnone => ?_, fun p t hsome => ?_⟩
  · rw [Cursor.search, if_pos hlt, if_neg hnext, if_neg hstar, hnone]
  · rw [Cursor.search, if_pos hlt, if_neg hnext, if_neg hstar, hsome]

theorem follows_run (h : c.Before pattern text restPattern restText) :
    c.Follows pattern text (run restPattern restText) := by
  obtain ⟨hp, hpattern, ht, htext⟩ := h
  fun_induction run restPattern restText generalizing c with
  | case1 rest =>
    have hend : text.length ≤ c.text := List.drop_eq_nil_iff.mp htext
    show c.search pattern text = _
    rw [Cursor.search, if_neg (Nat.not_lt.mpr hend), if_pos hp, hpattern]
  | case2 t rest =>
    obtain ⟨hlt, -, -⟩ := of_drop_eq_cons htext
    have hend : pattern.length ≤ c.pattern := List.drop_eq_nil_iff.mp hpattern
    have hnone : pattern[c.pattern]? ≠ some '*' := by simp [List.getElem?_eq_none hend]
    exact .of_mismatch hlt (fun h => Nat.not_lt.mpr hend h.1) hnone
  | case3 p pattern' t text' hnext ih =>
    obtain ⟨hlt, hget, hdrop⟩ := of_drop_eq_cons hpattern
    obtain ⟨hlt', hget', hdrop'⟩ := of_drop_eq_cons htext
    have hrest := ih (c := { c with pattern := c.pattern + 1, text := c.text + 1 }) hlt hdrop
      hlt' hdrop'
    refine hrest.of_eq ?_ rfl
    conv_lhs => rw [Cursor.search]
    rw [if_pos hlt', if_pos ⟨hlt, by simpa [hget, hget'] using hnext⟩]
  | case4 pattern' t text' hnext =>
    obtain ⟨hlt, hget, hdrop⟩ := of_drop_eq_cons hpattern
    obtain ⟨hlt', hget', -⟩ := of_drop_eq_cons htext
    refine ⟨c.pattern, c.text, ⟨hlt, hdrop, ht, htext⟩, ?_⟩
    conv_lhs => rw [Cursor.search]
    rw [if_pos hlt', if_neg (fun h => hnext (by simpa [hget, hget'] using h.2)), if_pos hget]
  | case5 p pattern' t text' hnext hstar =>
    obtain ⟨hlt, hget, -⟩ := of_drop_eq_cons hpattern
    obtain ⟨hlt', hget', -⟩ := of_drop_eq_cons htext
    exact .of_mismatch hlt' (fun h => hnext (by simpa [hget, hget'] using h.2))
      (by simpa [hget] using hstar)

/-- Behind a star the search ends, with what is found by giving the star ever more. -/
theorem search_afterStar {p t : Nat}
    (h : Cursor.Before ⟨p + 1, t, some (p, t)⟩ pattern text restPattern restText) :
    Cursor.search ⟨p + 1, t, some (p, t)⟩ pattern text =
      some (matchAfterStar restPattern restText) := by
  have hrun := follows_run h
  fun_induction matchAfterStar restPattern restText generalizing p t with
  | case1 restPattern restText rest he =>
    rw [he] at hrun
    exact hrun
  | case2 restPattern restText pattern' text' he ih =>
    rw [he] at hrun
    obtain ⟨p', t', hbefore, hsearch⟩ := hrun
    rw [hsearch]
    exact ih hbefore (follows_run hbefore)
  | case3 restPattern he => simp [run] at he
  | case4 restPattern c restText he ih =>
    rw [he] at hrun
    obtain ⟨hlt, -, hdrop⟩ := of_drop_eq_cons h.text_drop
    have hbefore : Cursor.Before ⟨p + 1, t + 1, some (p, t + 1)⟩ pattern text restPattern
        restText := ⟨h.pattern_le, h.pattern_drop, hlt, hdrop⟩
    exact (hrun.2 p t rfl).trans (ih hbefore (follows_run hbefore))

/-- The search ends with a result. -/
theorem search_eq (pattern text : List Char) :
    Cursor.search {} pattern text = some (matchChars pattern text) := by
  have hstart : Cursor.Before {} pattern text pattern text :=
    ⟨Nat.zero_le _, rfl, Nat.zero_le _, rfl⟩
  have hrun := follows_run hstart
  unfold matchChars
  cases he : run pattern text with
  | ended rest =>
    rw [he] at hrun
    exact hrun
  | star pattern' text' =>
    rw [he] at hrun
    obtain ⟨p, t, hbefore, hsearch⟩ := hrun
    exact hsearch.trans (search_afterStar hbefore)
  | stuck =>
    rw [he] at hrun
    exact hrun.1 rfl

end

/-! ## Stars that meet -/

theorem taken_append (before : List Char) :
    Taken (before ++ pattern) (before ++ text) ↔ Taken pattern text := by
  induction before with
  | nil => exact Iff.rfl
  | cons c before ih => exact (taken_next (.inr rfl)).trans ih

theorem exists_last_star (h : '*' ∈ text) :
    ∃ before after, text = before ++ '*' :: after ∧ '*' ∉ after := by
  obtain ⟨after, before, hrev, hnone⟩ := List.eq_append_cons_of_mem (List.mem_reverse.mpr h)
  refine ⟨before.reverse, after.reverse, ?_, by simpa using hnone⟩
  rw [← List.reverse_reverse text, hrev]
  simp

/-- A pattern with a star misses a text that it fits: the text has a star in the place of its last
one, which takes this star and leaves a space. -/
theorem exists_text_missed (h : '*' ∈ pattern) :
    ∃ text, Fits pattern text ∧ ¬ Taken pattern text := by
  obtain ⟨before, after, rfl, hnone⟩ := exists_last_star h
  refine ⟨before ++ '*' :: ' ' :: after, ?_, fun htaken => ?_⟩
  · exact fits_append (fits_self before) (fits_star ['*', ' '] (fits_self after))
  · have hrest : Taken after (' ' :: after) :=
      (taken_next (.inr rfl)).mp ((taken_append before).mp htaken)
    have hlength := length_of_fits hrest.fits hnone
    simp at hlength

/-- A text with a star is missed by a pattern that fits it: a star that could stand for nothing
takes the last star of the text, which the question mark behind it would have to stand for. -/
theorem exists_pattern_missed (h : '*' ∈ text) :
    ∃ pattern, Fits pattern text ∧ ¬ Taken pattern text := by
  obtain ⟨before, after, rfl, hnone⟩ := exists_last_star h
  refine ⟨before ++ '*' :: '?' :: after, ?_, fun htaken => ?_⟩
  · refine fits_append (fits_self before) (fits_star [] ?_)
    exact fits_cons.mpr ⟨['*'], after, by simp [StandsFor], fits_self after, rfl⟩
  · have hrest : Taken ('?' :: after) after :=
      (taken_next (.inr rfl)).mp ((taken_append before).mp htaken)
    have hlength := length_of_fits hrest.fits (by simpa using hnone)
    simp at hlength

theorem covers_iff (pattern text : String) :
    covers pattern text = true ↔ Taken pattern.toList text.toList :=
  matchChars_iff pattern.toList text.toList

/-- The search for a pattern ends and tells whether the pattern takes the text. What is taken fits.
A pattern takes all texts that it fits exactly if it has no star, and a text is taken by all
patterns that fit it exactly if it has none. -/
theorem covers_exact (pattern text : String) :
    Cursor.search {} pattern.toList text.toList = some (covers pattern text) ∧
    (covers pattern text = true ↔ Taken pattern.toList text.toList) ∧
    (covers pattern text = true → Fits pattern.toList text.toList) ∧
    ((∀ other : String, covers pattern other = true ↔ Fits pattern.toList other.toList) ↔
      '*' ∉ pattern.toList) ∧
    ((∀ other : String, covers other text = true ↔ Fits other.toList text.toList) ↔
      '*' ∉ text.toList) := by
  refine ⟨search_eq _ _, covers_iff _ _, fun h => ((covers_iff _ _).mp h).fits, ?_, ?_⟩
  · constructor
    · intro hall hstar
      obtain ⟨other, hfits, hmissed⟩ := exists_text_missed hstar
      rw [← String.toList_ofList (l := other)] at hfits hmissed
      exact hmissed ((covers_iff _ _).mp ((hall _).mpr hfits))
    · intro hnone other
      rw [covers_iff]
      exact ⟨Taken.fits, fun h => taken_of_fits h (.inl hnone)⟩
  · constructor
    · intro hall hstar
      obtain ⟨other, hfits, hmissed⟩ := exists_pattern_missed hstar
      rw [← String.toList_ofList (l := other)] at hfits hmissed
      exact hmissed ((covers_iff _ _).mp ((hall _).mpr hfits))
    · intro hnone other
      rw [covers_iff]
      exact ⟨Taken.fits, fun h => taken_of_fits h (.inr hnone)⟩

/-- A star alone, which fits every text, misses one that begins with a star and goes on. -/
theorem star_missed : Fits "*".toList "*a".toList ∧ covers "*" "*a" = false := by
  refine ⟨fits_star ['*', 'a'] (fits_nil.mpr rfl), ?_⟩
  decide

end ClockNet.Glob

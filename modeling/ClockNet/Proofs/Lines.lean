import ClockNet.Proofs.Spelling
import ClockNet.Rtlil.Printer

/-! # Lines of tokens

A text that is written line by line is cut into the tokens of its lines, each with the number of
its line (`tokens_lines`). Tokens with a space between them never run together; tokens of one
group, which have none, must be able to touch. -/

namespace ClockNet.Rtlil

/-- The second token can be written right behind the first one. -/
def Token.Touches (s t : Token) : Prop := Stops s.continuedBy t.spell.toList

theorem touches_of_mark (c : Char) (t : Token) : (Token.mark c).Touches t := fun _ _ => rfl

theorem touches_mark (value : Int) {c : Char} (h : c ∈ marks) :
    (Token.int value).Touches (.mark c) := by
  have hspell : (Token.mark c).spell.toList = [c] := by simp [Token.spell]
  unfold Token.Touches
  rw [hspell, stops_cons]
  show (c.isDigit || decide (c = '\'')) = false
  simp only [marks, List.mem_cons, List.not_mem_nil, or_false] at h
  rcases h with rfl | rfl | rfl | rfl | rfl <;> decide

/-- The tokens of a group have spellings that are read back, also where they touch. -/
structure GroupLegible (g : List Token) : Prop where
  tokens : ∀ t ∈ g, t.Legible
  touching : g.IsChain Token.Touches

/-- The groups of a line are read back. -/
def Line.Legible (l : Line) : Prop := ∀ g ∈ l.groups, GroupLegible g

theorem groupLegible_single {t : Token} (h : t.Legible) : GroupLegible [t] where
  tokens _ hs := List.mem_singleton.mp hs ▸ h
  touching := List.isChain_singleton t

def locate (line : Nat) (ts : List Token) : List Located := ts.map fun t => ⟨t, line⟩

/-- The tokens of lines, which are numbered from a first one on. -/
def locateLines : (first : Nat) → List Line → List Located
  | _, [] => []
  | line, l :: rest => locate line l.groups.flatten ++ locateLines (line + 1) rest

@[simp] theorem locate_nil (line : Nat) : locate line [] = [] := rfl

@[simp] theorem locate_cons (line : Nat) (t : Token) (ts : List Token) :
    locate line (t :: ts) = ⟨t, line⟩ :: locate line ts := rfl

@[simp] theorem locate_append (line : Nat) (ts ts' : List Token) :
    locate line (ts ++ ts') = locate line ts ++ locate line ts' := List.map_append

theorem locateLines_append (line : Nat) (ls ls' : List Line) :
    locateLines line (ls ++ ls') = locateLines line ls ++ locateLines (line + ls.length) ls' := by
  induction ls generalizing line with
  | nil => rfl
  | cons l rest ih =>
    have hline : line + 1 + rest.length = line + (rest.length + 1) := by omega
    simp only [List.cons_append, locateLines, ih, List.append_assoc, List.length_cons, hline]

/-! ## Blanks -/

theorem not_blank_of_wordChar {c : Char} (h : wordChar c = true) : Text.isBlank c = false := by
  have hrange : 32 < c.toNat ∧ c.toNat < 127 := by
    simp only [wordChar, Char.isAlphanum, Bool.or_eq_true, beq_iff_eq] at h
    rcases h with (ha | hd) | rfl
    · have := range_of_isAlpha ha
      omega
    · have := range_of_isDigit hd
      omega
    · decide
  exact isBlank_eq_false hrange.1 hrange.2

/-- No token goes on with white space. -/
theorem continuedBy_blank (t : Token) {c : Char} (h : Text.isBlank c = true) :
    t.continuedBy c = false := by
  by_contra hc
  have hgo := Bool.eq_true_of_not_eq_false hc
  have hnot : Text.isBlank c = false := by
    cases t with
    | word letters => exact not_blank_of_wordChar hgo
    | name n => simpa [Token.continuedBy, nameChar] using hgo
    | text content => cases hgo
    | int value =>
      simp only [Token.continuedBy, Bool.or_eq_true, decide_eq_true_eq] at hgo
      rcases hgo with hd | rfl
      · have := range_of_isDigit hd
        exact isBlank_eq_false (by omega) (by omega)
      · decide
    | const bits =>
      simp only [Token.continuedBy, bitChar, List.contains_iff_mem, List.mem_cons,
        List.not_mem_nil, or_false] at hgo
      rcases hgo with rfl | rfl | rfl | rfl | rfl | rfl <;> decide
    | mark d => cases hgo
  rw [h] at hnot
  cases hnot

/-! ## Tokens and groups -/

section
variable (line : Nat)

theorem tokensFrom_begins {t : Token} {text rest : List Char} (h : Begins t text rest) :
    tokensFrom line text = (⟨t, line⟩ :: ·) <$> tokensFrom line rest := by
  obtain ⟨c, tail, rfl, hblank, hhash, hlex⟩ := h
  have hline : c ≠ '\n' := by
    intro he
    rw [he] at hblank
    exact absurd hblank (by decide)
  rw [tokensFrom, if_neg hline, hblank, if_neg Bool.false_ne_true, if_neg hhash, hlex]
  rfl

theorem tokensFrom_spaces (n : Nat) (rest : List Char) :
    tokensFrom line (List.replicate n ' ' ++ rest) = tokensFrom line rest := by
  induction n with
  | zero => rfl
  | succ n ih =>
    rw [List.replicate_succ, List.cons_append, tokensFrom, if_neg (by decide), if_pos (by decide)]
    exact ih

theorem tokensFrom_newLine (rest : List Char) :
    tokensFrom line ('\n' :: rest) = tokensFrom (line + 1) rest := by
  rw [tokensFrom, if_pos rfl]

def groupChars (g : List Token) : List Char := g.flatMap fun t => t.spell.toList

theorem spell_ne_nil {t : Token} (h : t.Legible) : t.spell.toList ≠ [] := by
  have hb : Begins t (t.spell.toList ++ []) [] := begins_spell h (fun c hc => by cases hc)
  obtain ⟨c, tail, he, -⟩ := hb
  rw [List.append_nil] at he
  rw [he]
  exact List.cons_ne_nil _ _

/-- The tokens of a group are read up to the white space behind it. -/
theorem tokensFrom_group {g : List Token} (hg : GroupLegible g) {rest : List Char}
    (hr : Stops (!Text.isBlank ·) rest) :
    tokensFrom line (groupChars g ++ rest) = (locate line g ++ ·) <$> tokensFrom line rest := by
  obtain ⟨hl, ht⟩ := hg
  induction g with
  | nil =>
    show tokensFrom line rest = (fun ts => ts) <$> tokensFrom line rest
    rw [id_map']
  | cons t g ih =>
    have hstop : Stops t.continuedBy (groupChars g ++ rest) := by
      cases g with
      | nil =>
        intro c hc
        exact continuedBy_blank t (by simpa using hr c hc)
      | cons s g =>
        obtain ⟨c, tail, hs⟩ := List.exists_cons_of_ne_nil
          (spell_ne_nil (hl s (List.mem_cons_of_mem _ List.mem_cons_self)))
        have htouch : Stops t.continuedBy s.spell.toList := (List.isChain_cons_cons.mp ht).1
        unfold groupChars
        rw [hs] at htouch
        rw [List.flatMap_cons, hs]
        exact stops_cons.mpr (stops_cons.mp htouch)
    have hfirst : groupChars (t :: g) ++ rest = t.spell.toList ++ (groupChars g ++ rest) := by
      simp [groupChars]
    rw [hfirst, tokensFrom_begins line (begins_spell (hl t List.mem_cons_self) hstop),
      ih (fun t ht => hl t (List.mem_cons_of_mem _ ht)) (List.IsChain.tail ht)]
    cases tokensFrom line rest <;> rfl

theorem tokensFrom_groups {gs : List (List Token)} (h : ∀ g ∈ gs, GroupLegible g)
    (rest : List Char) :
    tokensFrom line ([' '].intercalate (gs.map groupChars) ++ '\n' :: rest) =
      (locate line gs.flatten ++ ·) <$> tokensFrom (line + 1) rest := by
  have hend : ∀ c : Char, Text.isBlank c = true → ∀ tail, Stops (!Text.isBlank ·) (c :: tail) := by
    intro c hc tail
    exact stops_cons.mpr (by simp [hc])
  induction gs with
  | nil =>
    show tokensFrom line ('\n' :: rest) = (fun ts => ts) <$> tokensFrom (line + 1) rest
    rw [tokensFrom_newLine, id_map']
  | cons g gs ih =>
    have hg := h g List.mem_cons_self
    cases gs with
    | nil =>
      have hone : [' '].intercalate ([g].map groupChars) = groupChars g := by simp
      rw [hone, tokensFrom_group line hg (hend '\n' (by decide) rest), tokensFrom_newLine,
        List.flatten_singleton]
    | cons g' gs =>
      have hmore : [' '].intercalate ((g :: g' :: gs).map groupChars) ++ '\n' :: rest =
          groupChars g ++
            (' ' :: ([' '].intercalate ((g' :: gs).map groupChars) ++ '\n' :: rest)) := by
        simp [List.intercalate_cons_cons]
      have hspace := tokensFrom_spaces line 1
        ([' '].intercalate ((g' :: gs).map groupChars) ++ '\n' :: rest)
      rw [List.replicate_one, List.singleton_append] at hspace
      rw [hmore, tokensFrom_group line hg (hend ' ' (by decide) _), hspace,
        ih fun g hg => h g (List.mem_cons_of_mem _ hg)]
      cases tokensFrom (line + 1) rest with
      | error e => rfl
      | ok ts => simp [Functor.map, Except.map]

end

/-! ## Lines -/

theorem spell_chars (l : Line) : l.spell.toList =
    List.replicate l.indent ' ' ++ ([' '].intercalate (l.groups.map groupChars) ++ ['\n']) := by
  have hgroup : ∀ g : List Token, (String.join (g.map Token.spell)).toList = groupChars g := by
    intro g
    rw [String.toList_join, List.flatMap_map]
    rfl
  unfold Line.spell
  simp only [String.toList_append, String.toList_ofList, String.toList_intercalate, List.map_map,
    Function.comp_def, hgroup, List.append_assoc]
  rfl

/-- A text of lines is cut into the tokens of the lines. -/
theorem tokensFrom_lines {ls : List Line} (h : ∀ l ∈ ls, l.Legible) (line : Nat) :
    tokensFrom line (ls.flatMap fun l => l.spell.toList) = .ok (locateLines line ls) := by
  induction ls generalizing line with
  | nil => rw [List.flatMap_nil, tokensFrom]; rfl
  | cons l ls ih =>
    have hl := h l List.mem_cons_self
    rw [List.flatMap_cons, spell_chars, List.append_assoc, List.append_assoc, tokensFrom_spaces,
      List.singleton_append, tokensFrom_groups line hl,
      ih fun l hl => h l (List.mem_cons_of_mem _ hl)]
    rfl

theorem tokens_lines {ls : List Line} (h : ∀ l ∈ ls, l.Legible) :
    tokens (String.join (ls.map Line.spell)).toList = .ok (locateLines 1 ls) := by
  rw [String.toList_join, List.flatMap_map]
  exact tokensFrom_lines h 1

end ClockNet.Rtlil

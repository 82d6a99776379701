import ClockNet.Proofs.RoundTrip

/-! # Values spelled and read

The value of an attribute is spelled as one token. A quoted text can lose characters on the way
back and never gains any: an octal escape takes all digits behind it, also those that are
characters of the text (`tight_spelled`). So a value is read back exactly if no character that is
written in octal has an octal digit behind it (`readsBack_iff`). -/

namespace ClockNet.Rtlil

/-! ## Counting characters -/

/-- A text that is read has at most so many characters, and a property holds if it has as many. -/
def Tight (read : Except LexicalFault (Lexeme (List Char))) (n : Nat) (P : Prop) : Prop :=
  ∀ l, read = .ok l → l.value.length ≤ n ∧ (l.value.length = n → P)

section
variable {read : Except LexicalFault (Lexeme (List Char))} {n m : Nat} {P Q : Prop}

theorem Tight.prepend (h : Tight read n P) (chars : List Char) :
    Tight ((·.prepend chars) <$> read) (n + chars.length) P := by
  intro l hl
  obtain ⟨l', hread, rfl⟩ := Text.map_eq_ok.mp hl
  obtain ⟨hle, hP⟩ := h l' hread
  simp only [Lexeme.prepend, List.length_append]
  exact ⟨by omega, fun he => hP (by omega)⟩

theorem Tight.imp (h : Tight read n P) (hPQ : P → Q) : Tight read n Q :=
  fun l hl => (h l hl).imp_right fun hP he => hPQ (hP he)

theorem Tight.lt (h : Tight read n P) (hlt : n < m) : Tight read m Q :=
  fun l hl => ⟨Nat.le_of_lt (Nat.lt_of_le_of_lt (h l hl).1 hlt),
    fun he => absurd (he ▸ (h l hl).1) (Nat.not_le.mpr hlt)⟩

end

theorem tight_over {code lines n : Nat} {rest : List Char} {P : Prop} (hs : Stops isOctal rest)
    (hne : rest ≠ []) (h : Tight (textBody .plain lines rest) n P) :
    Tight (textBody (.octal code) lines rest) (n + 1) P := by
  rw [textBody_over hs hne, TextState.flush]
  split
  · exact h.prepend [Char.ofNat code]
  · intro l hl
    cases hl

theorem spellChar_of_isOctal {c : Char} (h : isOctal c = true) : spellChar c = [c] := by
  have hrange : 48 ≤ c.toNat ∧ c.toNat ≤ 55 := by
    simpa [isOctal, Char.le_def, UInt32.le_iff_toNat_le] using h
  have hother : ∀ d : Char, d.toNat < 48 ∨ 55 < d.toNat → c ≠ d := by
    rintro d hd rfl
    omega
  have hctl : ¬(c.toNat < 0x20 ∨ c.toNat = 0x7f) := by omega
  simp [spellChar, hother, hctl]

/-- Reading what a text is spelled as, within an escape or not, gives at most its characters, and
all of them only if no digit of it has been taken for one of an escape. -/
theorem tight_spelled (content rest : List Char) :
    (∀ lines, Tight (textBody .plain lines (content.flatMap spellChar ++ '"' :: rest))
      content.length (Unambiguous content)) ∧
    ∀ code lines, Tight (textBody (.octal code) lines (content.flatMap spellChar ++ '"' :: rest))
      (content.length + 1) (Stops isOctal content ∧ Unambiguous content) := by
  induction content with
  | nil =>
    have hplain : ∀ lines, Tight (textBody .plain lines ('"' :: rest)) 0 (Unambiguous []) := by
      intro lines l hl
      obtain rfl := Except.ok.inj hl
      exact ⟨Nat.le_refl 0, fun _ => .nil⟩
    have hstops : Stops isOctal [] := fun c hc => by cases hc
    refine ⟨hplain, fun code lines => ?_⟩
    exact (tight_over (stops_cons.mpr (by decide)) (by simp) (hplain lines)).imp (.intro hstops)
  | cons c content ih =>
    obtain ⟨hplain, hoctal⟩ := ih
    have hboth : ∀ lines, Tight (textBody .plain lines
        ((c :: content).flatMap spellChar ++ '"' :: rest)) (content.length + 1)
        (Unambiguous (c :: content)) := by
      intro lines
      rw [List.flatMap_cons, List.append_assoc]
      by_cases hneeds : needsOctal c = true
      · rw [textBody_needsOctal hneeds]
        exact (hoctal c.toNat lines).imp fun h => unambiguous_cons.mpr ⟨fun _ => h.1, h.2⟩
      · rw [textBody_spellChar (fun h => absurd h hneeds) (by simp)]
        exact ((hplain lines).prepend [c]).imp fun h =>
          unambiguous_cons.mpr ⟨fun h => absurd h hneeds, h⟩
    refine ⟨hboth, fun code lines => ?_⟩
    by_cases hc : isOctal c = true
    · -- the digit goes to the escape, and one character is missing
      have hspell := spellChar_of_isOctal hc
      rw [List.flatMap_cons, hspell, List.cons_append, List.nil_append, List.cons_append, textBody,
        if_pos hc]
      exact (hoctal _ lines).lt (Nat.lt_succ_self _)
    · have hstops : Stops isOctal (c :: content) := stops_cons.mpr (by simpa using hc)
      exact (tight_over (stops_spelled hstops rest) (by simp) (hboth lines)).imp (.intro hstops)

/-- A spelled text of which nothing is lost has no escape with a digit behind it. -/
theorem unambiguous_of_textBody {content rest : List Char} {lines : Nat} {l : Lexeme (List Char)}
    (h : textBody .plain lines (content.flatMap spellChar ++ '"' :: rest) = .ok l)
    (hl : l.value = content) : Unambiguous content :=
  ((tight_spelled content rest).1 lines l h).2 (congrArg List.length hl)

/-! ## Values -/

theorem lexeme_of_tokensFrom {c : Char} {text : List Char} {line : Nat} {t : Located}
    {ts : List Located} (hblank : Text.isBlank c = false) (hhash : c ≠ '#')
    (h : tokensFrom line (c :: text) = .ok (t :: ts)) :
    ∃ l, lexeme c text = .ok l ∧ l.value = t.token := by
  have hline : c ≠ '\n' := by
    rintro rfl
    exact absurd hblank (by decide)
  rw [tokensFrom, if_neg hline, hblank, if_neg Bool.false_ne_true, if_neg hhash] at h
  cases hlex : lexeme c text with
  | error fault =>
    rw [hlex] at h
    cases h
  | ok l =>
    rw [hlex] at h
    change (⟨l.value, line + l.lines⟩ :: ·) <$> tokensFrom (line + l.lines) l.rest = _ at h
    obtain ⟨located, -, hlocated⟩ := Text.map_eq_ok.mp h
    obtain ⟨rfl, -⟩ := List.cons.inj hlocated
    exact ⟨l, rfl, rfl⟩

/-- A value is spelled as one token, and the token is read as the value, whatever follows it. -/
def ReadsBack (v : Value) : Prop :=
  ∃ t, tokens (valueToken v).spell.toList = .ok [t] ∧
    ∀ lastLine ts, value lastLine (t :: ts) = .ok (v, ts)

theorem ReadsBack.of_legible {v : Value} (h : ValueLegible v) : ReadsBack v := by
  have hend : Stops (valueToken v).continuedBy [] := fun c hc => by cases hc
  have hbegins := begins_spell (legible_valueToken h) hend
  rw [List.append_nil] at hbegins
  refine ⟨⟨valueToken v, 1⟩, ?_, fun lastLine ts => value_valueToken lastLine 1 v ts⟩
  rw [tokens, tokensFrom_begins 1 hbegins, tokensFrom]
  rfl

/-- Only the token of a text is read as that text. -/
theorem token_of_value_text {t : Located} {s : String} {lastLine : Nat} {ts : List Located}
    (h : value lastLine (t :: ts) = .ok (.text s, ts)) : t.token = .text s := by
  obtain ⟨token, line⟩ := t
  cases token <;> cases h
  rfl

/-- A spelled text that is read as itself has no escape with a digit behind it. -/
theorem unambiguous_of_tokens {s : String} {t : Located} {ts : List Located}
    (h : tokens (Token.text s).spell.toList = .ok (t :: ts)) (ht : t.token = .text s) :
    Unambiguous s.toList := by
  have hspell : (Token.text s).spell.toList = '"' :: (s.toList.flatMap spellChar ++ ['"']) := by
    simp [Token.spell, spellText]
  rw [tokens, hspell] at h
  obtain ⟨l, hlex, hl⟩ := lexeme_of_tokensFrom (by decide) (by decide) h
  rw [lexeme, if_pos rfl] at hlex
  obtain ⟨body, hbody, rfl⟩ := Text.map_eq_ok.mp hlex
  have hcontent : String.ofList body.value = s := Token.text.inj (hl.trans ht)
  exact unambiguous_of_textBody hbody (by rw [← hcontent, String.toList_ofList])

theorem width_lt_of_tokens {c : Const} {t : Located} {ts : List Located}
    (h : tokens (Token.const c).spell.toList = .ok (t :: ts)) : c.length < signedLimit := by
  have hspell : (Token.const c).spell.toList = Nat.toDigits 10 c.length ++ '\'' :: c.toChars := by
    simp [Token.spell, spellConst, Const.bits]
  have hstops : Stops Char.isDigit ('\'' :: c.toChars) := stops_cons.mpr (by decide)
  obtain ⟨d, digits, happend, hblank, hhash, hlex⟩ := lexeme_digits c.length hstops
  rw [tokens, hspell, happend] at h
  obtain ⟨l, hread, -⟩ := lexeme_of_tokensFrom hblank hhash h
  rw [hlex, number] at hread
  obtain ⟨width, hwidth, -⟩ := Text.of_bind_ok hread
  by_contra hlarge
  simp [decimal, Nat.le_of_not_lt hlarge] at hwidth

/-- A value is read back exactly if it is legible: a text if no control character that is written
in octal has an octal digit behind it, and a constant if its width fits a signed word. -/
theorem readsBack_iff (v : Value) : ReadsBack v ↔ ValueLegible v := by
  refine ⟨fun h => ?_, .of_legible⟩
  obtain ⟨t, htokens, hvalue⟩ := h
  cases v with
  | text s => exact unambiguous_of_tokens htokens (token_of_value_text (hvalue 0 []))
  | const c =>
    show c.length < signedLimit
    by_cases hint : c.length = 32
    · rw [hint]
      decide
    · have htoken : valueToken (.const c) = .const c := by
        simp only [valueToken, hint, false_and, if_false]
        split <;> rfl
      rw [htoken] at htokens
      exact width_lt_of_tokens htokens

/-- The digit behind an escape is taken for one of its digits: what comes back is one character. -/
theorem digit_taken : ¬ReadsBack (.text "\x010") ∧
    tokens (valueToken (.text "\x010")).spell.toList = .ok [⟨.text "\x08", 1⟩] := by
  have hbegins : Begins (.text "\x08") (valueToken (.text "\x010")).spell.toList [] :=
    ⟨'"', "\\0010\"".toList, by decide, by decide, by decide, by rfl⟩
  have htokens : tokens (valueToken (.text "\x010")).spell.toList =
      .ok [⟨.text "\x08", 1⟩] := by
    rw [tokens, tokensFrom_begins 1 hbegins, tokensFrom]
    rfl
  refine ⟨?_, htokens⟩
  rintro ⟨t, ht, hvalue⟩
  obtain ⟨rfl, -⟩ := List.cons.inj (Except.ok.inj (htokens.symm.trans ht))
  exact absurd (token_of_value_text (hvalue 0 [])) (by decide)

end ClockNet.Rtlil

import ClockNet.Proofs.Chunks
import ClockNet.Rtlil.Lexer
import Mathlib

/-! # Spelled tokens

A token that is spelled is read back as that token, whatever stands behind it, as long as that does
not begin with a character that goes on the token (`lexeme_spell`). Three things keep a spelling
from being read back: a name that is empty or has white space in it, a number that is no signed
word, and an octal escape with an octal digit after it. -/

namespace ClockNet.Rtlil

/-! ## Runs of characters -/

/-- A text does not begin with a character of a class. -/
def Stops (p : Char → Bool) (text : List Char) : Prop := ∀ c ∈ text.head?, p c = false

section
variable {p : Char → Bool} {run rest : List Char}

theorem stops_cons {c : Char} : Stops p (c :: rest) ↔ p c = false := by simp [Stops]

theorem takeWhile_run (h : ∀ c ∈ run, p c = true) (hr : Stops p rest) :
    (run ++ rest).takeWhile p = run := by
  rw [List.takeWhile_append_of_pos h]
  cases rest with
  | nil => simp
  | cons c rest => simp [stops_cons.mp hr]

theorem dropWhile_run (h : ∀ c ∈ run, p c = true) (hr : Stops p rest) :
    (run ++ rest).dropWhile p = rest := by
  rw [List.dropWhile_append_of_pos h]
  cases rest with
  | nil => rfl
  | cons c rest => simp [stops_cons.mp hr]

end

/-! ## Quoted texts -/

/-- The character is an ASCII control other than a new line and a tab: it is written in octal. -/
def needsOctal (c : Char) : Bool :=
  (c.toNat < 0x20 || c.toNat = 0x7f) && c != '\n' && c != '\t'

/-- No character that is written in octal has an octal digit after it, which would be read as one
more digit of it. -/
def Unambiguous (text : List Char) : Prop :=
  text.IsChain fun c d => needsOctal c = true → isOctal d = false

instance (text : List Char) : Decidable (Unambiguous text) :=
  inferInstanceAs (Decidable (text.IsChain _))

theorem isOctal_digitChar {d : Nat} (h : d < 8) :
    isOctal (Nat.digitChar d) = true ∧ octalValue (Nat.digitChar d) = d := by
  interval_cases d <;> decide

/-- The digits of an octal escape give the number that they were made of. -/
theorem textBody_octalDigits {c : Char} (h : c.toNat < 0x200) (lines : Nat) (rest : List Char) :
    textBody .escape lines (octal c ++ rest) = textBody (.octal c.toNat) lines rest := by
  have hd : ∀ n, n < 8 → isOctal (Nat.digitChar n) = true ∧ octalValue (Nat.digitChar n) = n :=
    fun n hn => isOctal_digitChar hn
  obtain ⟨h₁, v₁⟩ := hd (c.toNat / 64) (by omega)
  obtain ⟨h₂, v₂⟩ := hd (c.toNat / 8 % 8) (by omega)
  obtain ⟨h₃, v₃⟩ := hd (c.toNat % 8) (by omega)
  have hcode : (c.toNat / 64 * 8 + c.toNat / 8 % 8) * 8 + c.toNat % 8 = c.toNat := by omega
  simp only [octal, List.map_cons, List.map_nil, List.cons_append, List.nil_append, textBody,
    h₁, h₂, h₃, v₁, v₂, v₃, if_true, hcode]

theorem textBody_over {code lines : Nat} {rest : List Char} (h : Stops isOctal rest)
    (hne : rest ≠ []) : textBody (.octal code) lines rest = (do
      let chars ← (TextState.octal code).flush
      (·.prepend chars) <$> textBody .plain lines rest) := by
  cases rest with
  | nil => exact absurd rfl hne
  | cons d rest =>
    simp only [textBody, stops_cons.mp h, Bool.false_eq_true, if_false]
    cases (TextState.octal code).flush with
    | error fault => rfl
    | ok chars =>
      dsimp only [bind, Except.bind]
      split
      · simp only [Functor.map, Except.map, Lexeme.prepend, List.append_nil]
      · split
        · rfl
        · cases textBody .plain (if d = '\n' then lines + 1 else lines) rest with
          | error fault => rfl
          | ok l => simp only [Functor.map, Except.map, Lexeme.prepend, List.append_assoc]

theorem textBody_octal {c : Char} {rest : List Char} (h : Stops isOctal rest) (hne : rest ≠ [])
    (lines : Nat) : textBody (.octal c.toNat) lines rest =
      (·.prepend [c]) <$> textBody .plain lines rest := by
  have hflush : (TextState.octal c.toNat).flush = .ok [c] := by
    have hv : Nat.isValidChar c.toNat := c.valid
    simp only [TextState.flush, hv, if_true, Char.ofNat_toNat]
  rw [textBody_over h hne, hflush]
  rfl

theorem textBody_needsOctal {c : Char} (h : needsOctal c = true) (lines : Nat)
    (rest : List Char) : textBody .plain lines (spellChar c ++ rest) =
      textBody (.octal c.toNat) lines rest := by
  simp only [needsOctal, Bool.and_eq_true, bne_iff_ne, ne_eq] at h
  obtain ⟨⟨hctl, hline⟩, htab⟩ := h
  have hlt : c.toNat < 0x200 := by
    simp only [Bool.or_eq_true, decide_eq_true_eq] at hctl
    omega
  have hquote : c ≠ '"' := by
    rintro rfl
    exact absurd hctl (by decide)
  have hslash : c ≠ '\\' := by
    rintro rfl
    exact absurd hctl (by decide)
  have hescape : ('\\' : Char) ≠ '"' := by decide
  simp only [spellChar, hquote, hslash, hline, htab, hctl, if_false, if_true, List.cons_append,
    textBody, hescape]
  exact textBody_octalDigits hlt lines rest

theorem textBody_spellChar {c : Char} {rest : List Char}
    (h : needsOctal c = true → Stops isOctal rest) (hne : rest ≠ []) (lines : Nat) :
    textBody .plain lines (spellChar c ++ rest) =
      (·.prepend [c]) <$> textBody .plain lines rest := by
  by_cases hneeds : needsOctal c = true
  · rw [textBody_needsOctal hneeds, textBody_octal (h hneeds) hne]
  unfold spellChar
  split
  · rename_i hc
    subst hc
    rfl
  split
  · rename_i hc
    subst hc
    rfl
  split
  · rename_i hc
    subst hc
    rfl
  split
  · rename_i hc
    subst hc
    rfl
  split
  · rename_i hquote hslash hline htab hctl
    exact absurd (by simp [needsOctal, hline, htab, hctl]) hneeds
  · rename_i hquote hslash hline htab hctl
    simp only [List.cons_append, List.nil_append, textBody, hquote, hslash, hline, if_false]

theorem head_spellChar (c : Char) : (spellChar c).head? = some '\\' ∨ spellChar c = [c] := by
  unfold spellChar
  repeat' split
  all_goals simp

/-- A text that does not begin with an octal digit is not spelled as one that does. -/
theorem stops_spelled {content : List Char} (h : Stops isOctal content) (rest : List Char) :
    Stops isOctal (content.flatMap spellChar ++ '"' :: rest) := by
  cases content with
  | nil => exact stops_cons.mpr (by decide)
  | cons d content =>
    rw [List.flatMap_cons, List.append_assoc]
    rcases head_spellChar d with hs | hs
    · obtain ⟨tail, hs⟩ := List.head?_eq_some_iff.mp hs
      rw [hs]
      exact stops_cons.mpr (by decide)
    · rw [hs]
      exact stops_cons.mpr (stops_cons.mp h)

theorem unambiguous_cons {c : Char} {content : List Char} : Unambiguous (c :: content) ↔
    (needsOctal c = true → Stops isOctal content) ∧ Unambiguous content := by
  unfold Unambiguous Stops
  rw [List.isChain_cons]
  exact and_congr_left fun _ => ⟨fun h hc d hd => h d hd hc, fun h d hd hc => h hc d hd⟩

/-- A quoted text is read back up to its closing quote. -/
theorem textBody_spell {content : List Char} (h : Unambiguous content) (lines : Nat)
    (rest : List Char) : textBody .plain lines (content.flatMap spellChar ++ '"' :: rest) =
      .ok ⟨content, lines, rest⟩ := by
  induction content with
  | nil => rfl
  | cons c content ih =>
    obtain ⟨hnext, hrest⟩ := unambiguous_cons.mp h
    rw [List.flatMap_cons, List.append_assoc,
      textBody_spellChar (fun hneeds => stops_spelled (hnext hneeds) rest) (by simp), ih hrest]
    rfl

/-! ## Numbers -/

theorem decimal_toDigits {n : Nat} (h : n < signedLimit) : decimal (Nat.toDigits 10 n) = .ok n := by
  have hne : Nat.toDigits 10 n ≠ [] := Nat.toDigits_ne_nil
  simp [decimal, hne, h]

theorem bitChar_toChar (t : Trit) : bitChar t.toChar = true := by cases t <;> rfl

theorem sized_toChars (c : Const) : sized c.length c.toChars = .ok (.const c) := by
  have hlen : c.toChars.length = c.length := by simp [Const.toChars]
  simp [sized, hlen, Const.ofChars?_toChars, Const.zeroExtend, Const.zero]

/-! ## Tokens -/

/-- The characters that go on a token. -/
def Token.continuedBy : Token → Char → Bool
  | word _ => wordChar
  | name _ => nameChar
  | int _ => fun c => c.isDigit || c = '\''
  | const _ => bitChar
  | text _ | mark _ => fun _ => false

/-- The marks of the format. -/
def marks : List Char := ['\x7b', '\x7d', '[', ']', ':']

/-- A name that can be written: it has characters, none of which is white space. -/
def IsName (name : String) : Prop := name ≠ "" ∧ ∀ c ∈ name.toList, nameChar c = true

instance (name : String) : Decidable (IsName name) :=
  decidable_of_iff (name ≠ "" ∧ name.toList.all nameChar = true) (by simp [IsName])

/-- A keyword begins with a letter. -/
def IsWord (letters : String) : Prop :=
  letters.toList.head?.any Char.isAlpha = true ∧ ∀ c ∈ letters.toList, wordChar c = true

instance (letters : String) : Decidable (IsWord letters) :=
  decidable_of_iff (letters.toList.head?.any Char.isAlpha = true ∧
    letters.toList.all wordChar = true) (by simp [IsWord])

/-- The spelling of the token says what it is. -/
def Token.Legible : Token → Prop
  | word letters => IsWord letters
  | name n => IsName n
  | text content => Unambiguous content.toList
  | int value => value.natAbs < signedLimit
  | const bits => bits.length < signedLimit
  | mark c => c ∈ marks

/-- A text begins with a token: the token is read from it, and the rest is left. -/
def Begins (t : Token) (text rest : List Char) : Prop :=
  ∃ c tail, text = c :: tail ∧ Text.isBlank c = false ∧ c ≠ '#' ∧ lexeme c tail = .ok ⟨t, 0, rest⟩

section
variable {rest : List Char}

theorem range_of_isAlpha {c : Char} (h : c.isAlpha = true) :
    65 ≤ c.toNat ∧ c.toNat ≤ 90 ∨ 97 ≤ c.toNat ∧ c.toNat ≤ 122 := by
  simpa [Char.isAlpha, Char.isUpper, Char.isLower, UInt32.le_iff_toNat_le] using h

theorem range_of_isDigit {c : Char} (h : c.isDigit = true) : 48 ≤ c.toNat ∧ c.toNat ≤ 57 := by
  simpa [Char.isDigit, UInt32.le_iff_toNat_le] using h

theorem isBlank_eq_false {c : Char} (h : 32 < c.toNat) (h' : c.toNat < 127) :
    Text.isBlank c = false := by
  simp [Text.isBlank]
  omega

theorem begins_text {content : String} (h : Unambiguous content.toList) :
    Begins (.text content) ((Token.text content).spell.toList ++ rest) rest := by
  refine ⟨'"', content.toList.flatMap spellChar ++ '"' :: rest, ?_, by decide, by decide, ?_⟩
  · simp [Token.spell, spellText]
  · simp [lexeme, textBody_spell h]

theorem begins_name {name : String} (h : IsName name) (hr : Stops nameChar rest) :
    Begins (.name name) ((Token.name name).spell.toList ++ rest) rest := by
  obtain ⟨hne, hchars⟩ := h
  obtain ⟨c, chars, hname⟩ := List.exists_cons_of_ne_nil (l := name.toList) (by simpa using hne)
  have hback : String.ofList (c :: chars) = name := by rw [← hname, String.ofList_toList]
  rw [hname] at hchars
  by_cases hc : c = '$'
  · subst hc
    refine ⟨'$', chars ++ rest, ?_, by decide, by decide, ?_⟩
    · simp [Token.spell, spellName, hname]
    · have hrest : ∀ c ∈ chars, nameChar c = true :=
        fun c hc => hchars c (List.mem_cons_of_mem _ hc)
      simp only [lexeme, takeWhile_run hrest hr, dropWhile_run hrest hr, hback]
      rfl
  · refine ⟨'\\', c :: chars ++ rest, ?_, by decide, by decide, ?_⟩
    · simp [Token.spell, spellName, hname, hc]
    · simp only [lexeme, takeWhile_run hchars hr, dropWhile_run hchars hr, hback]
      rfl

theorem begins_word {letters : String} (h : IsWord letters) (hr : Stops wordChar rest) :
    Begins (.word letters) ((Token.word letters).spell.toList ++ rest) rest := by
  obtain ⟨hfirst, hchars⟩ := h
  cases hletters : letters.toList with
  | nil => simp [hletters] at hfirst
  | cons c chars =>
    have hback : String.ofList (c :: chars) = letters := by rw [← hletters, String.ofList_toList]
    have halpha : c.isAlpha = true := by simpa [hletters] using hfirst
    rw [hletters] at hchars
    have hrest : ∀ c ∈ chars, wordChar c = true := fun c hc => hchars c (List.mem_cons_of_mem _ hc)
    -- a letter is none of the characters that begin another token
    have hother : ∀ d : Char, d.isAlpha = false → c ≠ d := by
      intro d hd he
      rw [← he, halpha] at hd
      cases hd
    have hrange := range_of_isAlpha halpha
    have hdigit : c.isDigit = false := by
      by_contra hd
      have := range_of_isDigit (Bool.eq_true_of_not_eq_false hd)
      omega
    refine ⟨c, chars ++ rest, ?_, isBlank_eq_false (by omega) (by omega), hother _ (by decide), ?_⟩
    · simp [Token.spell, hletters]
    · simp [lexeme, hother, hdigit, halpha, takeWhile_run hrest hr, dropWhile_run hrest hr, hback]

theorem begins_mark {c : Char} (h : c ∈ marks) :
    Begins (.mark c) ((Token.mark c).spell.toList ++ rest) rest := by
  refine ⟨c, rest, by simp [Token.spell], ?_⟩
  simp only [marks, List.mem_cons, List.not_mem_nil, or_false] at h
  rcases h with rfl | rfl | rfl | rfl | rfl <;> exact ⟨by decide, by decide, rfl⟩

theorem lexeme_digits {tail : List Char} (n : Nat) (hs : Stops Char.isDigit tail) :
    ∃ c digits, Nat.toDigits 10 n ++ tail = c :: digits ∧ Text.isBlank c = false ∧ c ≠ '#' ∧
      lexeme c digits = number (Nat.toDigits 10 n) tail := by
  have hdigits : ∀ c ∈ Nat.toDigits 10 n, c.isDigit = true := fun c hc =>
    Nat.isDigit_of_mem_toDigits (by decide) (by decide) hc
  obtain ⟨c, digits, hn⟩ := List.exists_cons_of_ne_nil (Nat.toDigits_ne_nil (n := n) (b := 10))
  rw [hn] at hdigits ⊢
  have hc := hdigits c List.mem_cons_self
  have hrange := range_of_isDigit hc
  have hrest : ∀ c ∈ digits, c.isDigit = true := fun c hc => hdigits c (List.mem_cons_of_mem _ hc)
  have hother : ∀ d : Char, d.isDigit = false → c ≠ d := by
    intro d hd he
    rw [← he, hc] at hd
    cases hd
  refine ⟨c, digits ++ tail, rfl, isBlank_eq_false (by omega) (by omega), hother _ (by decide), ?_⟩
  simp [lexeme, hother, hc, takeWhile_run hrest hs, dropWhile_run hrest hs]

theorem begins_digits {t : Token} {n : Nat} {tail : List Char} (hs : Stops Char.isDigit tail)
    (ht : number (Nat.toDigits 10 n) tail = .ok ⟨t, 0, rest⟩) :
    Begins t (Nat.toDigits 10 n ++ tail) rest := by
  obtain ⟨c, digits, happend, hblank, hhash, hlex⟩ := lexeme_digits n hs
  exact ⟨c, digits, happend, hblank, hhash, hlex.trans ht⟩

theorem number_int {n : Nat} (h : n < signedLimit) (hr : ∀ tail, rest ≠ '\'' :: tail) :
    number (Nat.toDigits 10 n) rest = .ok ⟨.int n, 0, rest⟩ := by
  unfold number
  rw [decimal_toDigits h]
  simp only [bind, Except.bind]

theorem number_const {bits : Const} (h : bits.length < signedLimit) (hr : Stops bitChar rest) :
    number (Nat.toDigits 10 bits.length) ('\'' :: bits.toChars ++ rest) =
      .ok ⟨.const bits, 0, rest⟩ := by
  have hbits : ∀ c ∈ bits.toChars, bitChar c = true := by
    intro c hc
    obtain ⟨t, -, rfl⟩ := List.mem_map.mp (List.mem_reverse.mp hc)
    exact bitChar_toChar t
  unfold number
  rw [decimal_toDigits h, List.cons_append]
  simp only [bind, Except.bind, takeWhile_run hbits hr, dropWhile_run hbits hr, sized_toChars]

theorem begins_int {value : Int} (h : value.natAbs < signedLimit)
    (hr : Stops (Token.int value).continuedBy rest) :
    Begins (.int value) ((Token.int value).spell.toList ++ rest) rest := by
  have hdigits : Stops Char.isDigit rest := by
    intro c hc
    have hboth := hr c hc
    simp only [Token.continuedBy, Bool.or_eq_false_iff] at hboth
    exact hboth.1
  have hmark : ∀ tail, rest ≠ '\'' :: tail := by
    intro tail he
    rw [he] at hr
    exact absurd (stops_cons.mp hr) (by simp [Token.continuedBy])
  cases value with
  | ofNat n =>
    have hspell : (Token.int n).spell.toList = Nat.toDigits 10 n := by
      show (Nat.repr n).toList = Nat.toDigits 10 n
      exact Nat.toList_repr
    exact hspell ▸ begins_digits hdigits (number_int h hmark)
  | negSucc n =>
    have hspell : (Token.int (.negSucc n)).spell.toList = '-' :: Nat.toDigits 10 (n + 1) := by
      show ("-" ++ Nat.repr (n + 1)).toList = '-' :: Nat.toDigits 10 (n + 1)
      simp
    have hall : ∀ c ∈ Nat.toDigits 10 (n + 1), c.isDigit = true := fun c hc =>
      Nat.isDigit_of_mem_toDigits (by decide) (by decide) hc
    refine ⟨'-', Nat.toDigits 10 (n + 1) ++ rest, by rw [hspell]; rfl, by decide, by decide, ?_⟩
    have hdecimal : decimal (Nat.toDigits 10 (n + 1)) = .ok (n + 1) := decimal_toDigits h
    simp only [lexeme, takeWhile_run hall hdigits, dropWhile_run hall hdigits, hdecimal]
    rfl

theorem begins_const {bits : Const} (h : bits.length < signedLimit) (hr : Stops bitChar rest) :
    Begins (.const bits) ((Token.const bits).spell.toList ++ rest) rest := by
  have hspell : (Token.const bits).spell.toList =
      Nat.toDigits 10 bits.length ++ '\'' :: bits.toChars := by
    simp [Token.spell, spellConst, Const.bits]
  rw [hspell, List.append_assoc]
  exact begins_digits (stops_cons.mpr (by decide)) (number_const h hr)

/-- A token that is spelled is read back, up to where its spelling stops. -/
theorem begins_spell {t : Token} (h : t.Legible) (hr : Stops t.continuedBy rest) :
    Begins t (t.spell.toList ++ rest) rest := by
  cases t with
  | word letters => exact begins_word h hr
  | name n => exact begins_name h hr
  | text content => exact begins_text h
  | int value => exact begins_int h hr
  | const bits => exact begins_const h hr
  | mark c => exact begins_mark h

end

end ClockNet.Rtlil

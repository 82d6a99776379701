import ClockNet.Rtlil.Error
import ClockNet.Text.Blank
import ClockNet.Text.Step

/-! Cutting a netlist text into tokens. White space separates tokens and a number sign
begins a comment; every token carries the line on which it ends. -/

namespace ClockNet.Rtlil

open Text (andThen length_dropWhile_le)

/-! ### Quoted texts -/

/-- Where a quoted text is being read. -/
inductive TextState where
  | plain
  /-- After a backslash. -/
  | escape
  /-- Within an octal escape, with the value of its digits. -/
  | octal (code : Nat)
deriving DecidableEq

/-- The character that an escape has written, once it is known to be over. -/
def TextState.flush : TextState → Except LexicalFault (List Char)
  | octal code => if code.isValidChar then .ok [Char.ofNat code] else .error .invalidEscape
  | _ => .ok []

def isOctal (c : Char) : Bool := '0' ≤ c && c ≤ '7'

def octalValue (c : Char) : Nat := c.toNat - '0'.toNat

/-- What was read of a token: its value, the number of lines it goes on over, and the text
after it. -/
structure Lexeme (α : Type) where
  value : α
  lines : Nat
  rest : List Char

def Lexeme.prepend (chars : List Char) (l : Lexeme (List Char)) : Lexeme (List Char) :=
  { l with value := chars ++ l.value }

/-- Reads a text up to its closing quote. A new line counts unless a backslash escapes
it. -/
def textBody : TextState → (lines : Nat) → List Char →
    Except LexicalFault (Lexeme (List Char))
  | state, _, [] => do
    let _ ← state.flush
    .error .unterminatedText
  | .escape, lines, c :: rest =>
    if isOctal c then textBody (.octal (octalValue c)) lines rest
    else
      let char := if c = 'n' then '\n' else if c = 't' then '\t' else c
      (·.prepend [char]) <$> textBody .plain lines rest
  | .plain, lines, c :: rest =>
    if c = '"' then .ok ⟨[], lines, rest⟩
    else if c = '\\' then textBody .escape lines rest
    else (·.prepend [c]) <$> textBody .plain (if c = '\n' then lines + 1 else lines) rest
  | .octal code, lines, c :: rest =>
    if isOctal c then textBody (.octal (code * 8 + octalValue c)) lines rest
    else do
      let char ← (TextState.octal code).flush
      if c = '"' then .ok ⟨char, lines, rest⟩
      else if c = '\\' then (·.prepend char) <$> textBody .escape lines rest
      else
        (·.prepend (char ++ [c])) <$>
          textBody .plain (if c = '\n' then lines + 1 else lines) rest

theorem map_prepend_ok {chars : List Char} {x : Except LexicalFault (Lexeme (List Char))}
    {l : Lexeme (List Char)} (h : (·.prepend chars) <$> x = .ok l) :
    ∃ l', x = .ok l' ∧ l'.rest = l.rest := by
  cases x with
  | error e => cases h
  | ok l' => cases h; exact ⟨l', rfl, rfl⟩

theorem textBody_length {state : TextState} {lines : Nat} {text : List Char}
    {l : Lexeme (List Char)} (h : textBody state lines text = .ok l) :
    l.rest.length ≤ text.length := by
  induction text generalizing state lines l with
  | nil =>
    -- the text ends before the closing quote
    cases state with
    | plain => cases h
    | escape => cases h
    | octal code =>
      rw [textBody] at h
      cases hflush : (TextState.octal code).flush with
      | error e => rw [hflush] at h; cases h
      | ok char => rw [hflush] at h; cases h
  | cons c rest ih =>
    cases state with
    | plain =>
      simp only [textBody] at h
      split at h
      · cases h; simp
      · split at h
        · exact Nat.le_succ_of_le (ih h)
        · obtain ⟨l', h', hr⟩ := map_prepend_ok h
          exact hr ▸ Nat.le_succ_of_le (ih h')
    | escape =>
      simp only [textBody] at h
      split at h
      · exact Nat.le_succ_of_le (ih h)
      · obtain ⟨l', h', hr⟩ := map_prepend_ok h
        exact hr ▸ Nat.le_succ_of_le (ih h')
    | octal code =>
      simp only [textBody] at h
      split at h
      · exact Nat.le_succ_of_le (ih h)
      · cases hf : (TextState.octal code).flush with
        | error e => simp [hf, bind, Except.bind] at h
        | ok char =>
          simp only [hf, bind, Except.bind] at h
          split at h
          · cases h; simp
          · split at h
            · obtain ⟨l', h', hr⟩ := map_prepend_ok h
              exact hr ▸ Nat.le_succ_of_le (ih h')
            · obtain ⟨l', h', hr⟩ := map_prepend_ok h
              exact hr ▸ Nat.le_succ_of_le (ih h')

/-! ### Names, numbers and words -/

/-- The characters of a name go on up to white space. -/
def nameChar (c : Char) : Bool := !Text.isBlank c

def wordChar (c : Char) : Bool := c.isAlphanum || c == '_'

/-- The characters that may stand for bits. -/
def bitChar (c : Char) : Bool := ['0', '1', 'x', 'z', 'm', '-'].contains c

/-- A number of decimal digits, less than two to the 63. -/
def decimal (digits : List Char) : Except LexicalFault Nat :=
  let value := Nat.ofDigitChars 10 digits 0
  if digits = [] || signedLimit ≤ value then .error (.invalidNumber (String.ofList digits))
  else .ok value

/-- The constant of a width; missing bits at the most significant end are 0. -/
def sized (width : Nat) (bits : List Char) : Except LexicalFault Token :=
  if width < bits.length then .error (.tooManyBits (String.ofList bits) width)
  else .ok (.const (((Const.ofChars? bits).getD []).zeroExtend width))

/-- A number, or with an apostrophe after it a constant of that width. -/
def number (digits rest : List Char) : Except LexicalFault (Lexeme Token) := do
  let value ← decimal digits
  match rest with
  | '\'' :: rest =>
    let token ← sized value (rest.takeWhile bitChar)
    .ok ⟨token, 0, rest.dropWhile bitChar⟩
  | rest => .ok ⟨.int value, 0, rest⟩

/-- The token that begins with `c`, which is no white space. -/
def lexeme (c : Char) (rest : List Char) : Except LexicalFault (Lexeme Token) :=
  if c = '"' then
    (fun l => ⟨.text (String.ofList l.value), l.lines, l.rest⟩) <$> textBody .plain 0 rest
  else if c = '\\' then
    match rest.takeWhile nameChar with
    | [] => .error .emptyName
    | chars => .ok ⟨.name (String.ofList chars), 0, rest.dropWhile nameChar⟩
  else if c = '$' then
    .ok ⟨.name (String.ofList (c :: rest.takeWhile nameChar)), 0, rest.dropWhile nameChar⟩
  else if c = '-' then
    (fun n => ⟨.int (-n), 0, rest.dropWhile Char.isDigit⟩) <$>
      decimal (rest.takeWhile Char.isDigit)
  else if c.isDigit then
    number (c :: rest.takeWhile Char.isDigit) (rest.dropWhile Char.isDigit)
  else if ['\x7b', '\x7d', '[', ']', ':'].contains c then .ok ⟨.mark c, 0, rest⟩
  else if c.isAlpha then
    .ok ⟨.word (String.ofList (c :: rest.takeWhile wordChar)), 0, rest.dropWhile wordChar⟩
  else .error (.unexpectedChar c)

theorem number_length {digits rest : List Char} {l : Lexeme Token}
    (h : number digits rest = .ok l) : l.rest.length ≤ rest.length := by
  unfold number at h
  cases hd : decimal digits with
  | error e => simp [hd, bind, Except.bind] at h
  | ok value =>
    simp only [hd, bind, Except.bind] at h
    split at h
    · rename_i rest'
      split at h
      · cases h
      · cases h
        exact Nat.le_succ_of_le (length_dropWhile_le _ rest')
    · cases h; exact Nat.le_refl _

theorem lexeme_length {c : Char} {rest : List Char} {l : Lexeme Token}
    (h : lexeme c rest = .ok l) : l.rest.length ≤ rest.length := by
  unfold lexeme at h
  split at h
  · cases ht : textBody .plain 0 rest with
    | error e => simp [ht, Functor.map, Except.map] at h
    | ok t =>
      simp only [ht, Functor.map, Except.map] at h
      cases h; exact textBody_length ht
  split at h
  · split at h
    · cases h
    · cases h; exact length_dropWhile_le _ rest
  split at h
  · cases h; exact length_dropWhile_le _ rest
  split at h
  · cases hd : decimal (rest.takeWhile Char.isDigit) with
    | error e => simp [hd, Functor.map, Except.map] at h
    | ok n =>
      simp only [hd, Functor.map, Except.map] at h
      cases h; exact length_dropWhile_le _ rest
  split at h
  · exact Nat.le_trans (number_length h) (length_dropWhile_le _ rest)
  split at h
  · cases h; exact Nat.le_refl _
  split at h
  · cases h; exact length_dropWhile_le _ rest
  · cases h

/-! ### Whole texts -/

/-- The tokens of a text that begins on a line. A fault within a token is reported on the
line where the token begins. -/
def tokensFrom (line : Nat) : List Char → Except ParseError (List Located)
  | [] => .ok []
  | c :: rest =>
    if c = '\n' then tokensFrom (line + 1) rest
    else if Text.isBlank c then tokensFrom line rest
    else if c = '#' then tokensFrom line (rest.dropWhile (· != '\n'))
    else
      andThen ((lexeme c rest).mapError fun fault => (⟨line, .lexical fault⟩ : ParseError))
        fun l _h => (⟨l.value, line + l.lines⟩ :: ·) <$> tokensFrom (line + l.lines) l.rest
termination_by text => text.length
decreasing_by
  · exact Nat.lt_succ_self _
  · exact Nat.lt_succ_self _
  · exact Nat.lt_succ_of_le (length_dropWhile_le _ _)
  · refine Nat.lt_succ_of_le (lexeme_length (c := c) ?_)
    cases hl : lexeme c rest with
    | error e => simp [hl, Except.mapError] at _h
    | ok l' => simpa [hl, Except.mapError] using _h

def tokens (text : List Char) : Except ParseError (List Located) := tokensFrom 1 text

end ClockNet.Rtlil

import ClockNet.Json.Value
import ClockNet.Text.Step

/-! Reading JSON. A text is cut into tokens, and the tokens are put together along a stack
of the arrays and objects that are still open. A field that is set again keeps its place
and takes the new value. -/

namespace ClockNet.Json

open Text (length_dropWhile_le)

/-! ### Tokens -/

/-- A mark, or a value without parts. -/
inductive Token where
  | openArray | closeArray | openObject | closeObject | comma | colon
  | scalar (value : Json)

/-- The character of an escape of one letter. -/
def escaped? : Char → Option Char
  | '"' => some '"'
  | '\\' => some '\\'
  | '/' => some '/'
  | 'b' => some '\x08'
  | 'f' => some '\x0c'
  | 'n' => some '\n'
  | 'r' => some '\r'
  | 't' => some '\t'
  | _ => none

def hexDigit? (c : Char) : Option Nat :=
  if c.isDigit then some (c.toNat - '0'.toNat)
  else if 'a' ≤ c && c ≤ 'f' then some (c.toNat - 'a'.toNat + 10)
  else if 'A' ≤ c && c ≤ 'F' then some (c.toNat - 'A'.toNat + 10)
  else none

/-- The number that four hexadecimal digits write. -/
def hex4? (a b c d : Char) : Option Nat := do
  let a ← hexDigit? a
  let b ← hexDigit? b
  let c ← hexDigit? c
  let d ← hexDigit? d
  some (((a * 16 + b) * 16 + c) * 16 + d)

/-- The character of a number, unless it is half of a pair. -/
def unpaired? (u : Nat) : Option Char :=
  if 0xd800 ≤ u && u < 0xe000 then none else some (Char.ofNat u)

/-- The character of a pair of numbers, a high half and a low half. -/
def paired? (high low : Nat) : Option Char :=
  if 0xd800 ≤ high && high < 0xdc00 && 0xdc00 ≤ low && low < 0xe000 then
    some (Char.ofNat (0x10000 + (high - 0xd800) * 0x400 + (low - 0xdc00)))
  else none

/-- The character that four hexadecimal digits write, with a second escape where they are
the high half of a pair, and the text after it. -/
def hexEscape (a b c d : Char) (rest : List Char) : Option (Char × List Char) := do
  let u ← hex4? a b c d
  match unpaired? u, rest with
  | some char, rest => some (char, rest)
  | none, '\\' :: 'u' :: e :: f :: g :: h :: rest => do
    let char ← paired? u (← hex4? e f g h)
    some (char, rest)
  | none, _ => none

theorem hexEscape_length {a b c d char : Char} {rest rest' : List Char}
    (h : hexEscape a b c d rest = some (char, rest')) : rest'.length ≤ rest.length := by
  unfold hexEscape at h
  cases hu : hex4? a b c d with
  | none => simp [hu] at h
  | some u =>
    simp only [hu, Option.bind_eq_bind, Option.bind_some] at h
    split at h
    · cases h; exact Nat.le_refl _
    · rename_i e f g i rest _
      cases hl : hex4? e f g i with
      | none => simp [hl] at h
      | some low =>
        simp only [hl, Option.bind_some] at h
        cases hp : paired? u low with
        | none => simp [hp] at h
        | some p =>
          simp only [hp, Option.bind_some, Option.some.injEq, Prod.mk.injEq] at h
          simp only [← h.2, List.length_cons]
          omega
    · cases h

/-- The characters of a string up to its closing quote, and the text after it. -/
def stringBody (text : List Char) : Option (List Char × List Char) :=
  match text with
  | [] => none
  | '"' :: rest => some ([], rest)
  | '\\' :: 'u' :: a :: b :: c :: d :: rest =>
    match _h : hexEscape a b c d rest with
    | some (char, rest) => (stringBody rest).map fun r => (char :: r.1, r.2)
    | none => none
  | '\\' :: c :: rest =>
    match escaped? c with
    | some char => (stringBody rest).map fun r => (char :: r.1, r.2)
    | none => none
  | c :: rest =>
    if c.toNat < 0x20 then none else (stringBody rest).map fun r => (c :: r.1, r.2)
termination_by text.length
decreasing_by
  · have := hexEscape_length _h
    simp only [List.length_cons]
    omega
  · simp only [List.length_cons]; omega
  · exact Nat.lt_succ_self _

theorem stringBody_length {text chars rest : List Char}
    (h : stringBody text = some (chars, rest)) : rest.length < text.length := by
  fun_induction stringBody text generalizing chars with
  | case1 => cases h
  | case2 => cases h; simp
  | case3 a b c d rest' char rest'' hx ih =>
    obtain ⟨r, hr, he⟩ := Option.map_eq_some_iff.mp h
    have := hexEscape_length hx
    have := ih (by rw [hr]; simp only [Prod.mk.injEq] at he; rw [← he.2])
    simp only [List.length_cons]
    omega
  | case4 => cases h
  | case5 c rest' _ char _ ih =>
    obtain ⟨r, hr, he⟩ := Option.map_eq_some_iff.mp h
    have := ih (by rw [hr]; simp only [Prod.mk.injEq] at he; rw [← he.2])
    simp only [List.length_cons]
    omega
  | case6 => cases h
  | case7 => cases h
  | case8 c rest' _ _ _ _ ih =>
    obtain ⟨r, hr, he⟩ := Option.map_eq_some_iff.mp h
    have := ih (by rw [hr]; simp only [Prod.mk.injEq] at he; rw [← he.2])
    simp only [List.length_cons]
    omega

/-- The digits after a point, of which there is at least one; none without a point. -/
def fraction (text : List Char) : Option (List Char × List Char) :=
  match text with
  | '.' :: rest =>
    match rest.takeWhile Char.isDigit with
    | [] => none
    | digits => some (digits, rest.dropWhile Char.isDigit)
  | rest => some ([], rest)

/-- The sign of an exponent, and the text after it. -/
def exponentSign : List Char → Bool × List Char
  | '-' :: rest => (true, rest)
  | '+' :: rest => (false, rest)
  | rest => (false, rest)

/-- The digits of an exponent, of which there is at least one. -/
def exponentDigits (negative : Bool) (text : List Char) : Option (Int × List Char) :=
  match text.takeWhile Char.isDigit with
  | [] => none
  | digits =>
    let e : Int := Nat.ofDigitChars 10 digits 0
    some (if negative then -e else e, text.dropWhile Char.isDigit)

/-- An exponent after its letter; 0 without a letter. -/
def exponent (text : List Char) : Option (Int × List Char) :=
  match text with
  | 'e' :: rest | 'E' :: rest =>
    let sign := exponentSign rest
    exponentDigits sign.1 sign.2
  | rest => some (0, rest)

/-- The digits before the point: 0 alone, or digits that do not begin with 0. -/
def whole (text : List Char) : Option (List Char × List Char) :=
  match text.takeWhile Char.isDigit with
  | [] => none
  | '0' :: _ :: _ => none
  | digits => some (digits, text.dropWhile Char.isDigit)

/-- A number without its sign, and the text after it. -/
def magnitude (negative : Bool) (text : List Char) : Option (Number × List Char) := do
  let (whole, text) ← whole text
  let (fraction, text) ← fraction text
  let (exponent, text) ← exponent text
  let n ← Number.ofDigits? negative whole fraction exponent
  some (n, text)

/-- White space between tokens: the ASCII blanks and controls from tab to carriage
return. -/
def isSpace (c : Char) : Bool := c = ' ' || (0x9 ≤ c.toNat && c.toNat ≤ 0xd)

def after? (start : List Char) (text : List Char) : Option (List Char) :=
  match start, text with
  | [], text => some text
  | _ :: _, [] => none
  | a :: start, b :: text => if a = b then after? start text else none

/-- The token that begins with `c`, and the text after it. -/
def token? (c : Char) (rest : List Char) : Option (Token × List Char) :=
  match c with
  | '[' => some (.openArray, rest)
  | ']' => some (.closeArray, rest)
  | '\x7b' => some (.openObject, rest)
  | '\x7d' => some (.closeObject, rest)
  | ',' => some (.comma, rest)
  | ':' => some (.colon, rest)
  | '"' => (stringBody rest).map fun r => (.scalar (.string (String.ofList r.1)), r.2)
  | 'n' => (after? ['u', 'l', 'l'] rest).map fun rest => (.scalar .null, rest)
  | 't' => (after? ['r', 'u', 'e'] rest).map fun rest => (.scalar (.bool true), rest)
  | 'f' => (after? ['a', 'l', 's', 'e'] rest).map fun rest => (.scalar (.bool false), rest)
  | '-' => (magnitude true rest).map fun r => (.scalar (.number r.1), r.2)
  | c =>
    if c.isDigit then
      (magnitude false (c :: rest)).map fun r => (.scalar (.number r.1), r.2)
    else none

theorem whole_length {text digits rest : List Char} (h : whole text = some (digits, rest)) :
    rest.length < text.length := by
  unfold whole at h
  split at h
  · cases h
  · cases h
  · rename_i hne _
    simp only [Option.some.injEq, Prod.mk.injEq] at h
    have hsplit := congrArg List.length
      (List.takeWhile_append_dropWhile (p := Char.isDigit) (l := text))
    have hpos : 0 < (text.takeWhile Char.isDigit).length := List.length_pos_iff.mpr hne
    rw [List.length_append] at hsplit
    rw [← h.2]
    omega

theorem fraction_length {text digits rest : List Char}
    (h : fraction text = some (digits, rest)) : rest.length ≤ text.length := by
  unfold fraction at h
  split at h
  · split at h
    · cases h
    · cases h; exact Nat.le_succ_of_le (length_dropWhile_le _ _)
  · cases h; exact Nat.le_refl _

theorem exponentSign_length (text : List Char) :
    (exponentSign text).2.length ≤ text.length := by
  unfold exponentSign
  split <;> simp

theorem exponentDigits_length {negative : Bool} {text rest : List Char} {e : Int}
    (h : exponentDigits negative text = some (e, rest)) : rest.length ≤ text.length := by
  unfold exponentDigits at h
  split at h
  · cases h
  · cases h; exact length_dropWhile_le _ _

theorem exponent_length {text rest : List Char} {e : Int}
    (h : exponent text = some (e, rest)) : rest.length ≤ text.length := by
  unfold exponent at h
  split at h
  iterate 2
    exact Nat.le_succ_of_le (Nat.le_trans (exponentDigits_length h) (exponentSign_length _))
  · cases h; exact Nat.le_refl _

theorem magnitude_length {negative : Bool} {text rest : List Char} {n : Number}
    (h : magnitude negative text = some (n, rest)) : rest.length < text.length := by
  obtain ⟨w, hw, h⟩ := Option.bind_eq_some_iff.mp h
  obtain ⟨f, hf, h⟩ := Option.bind_eq_some_iff.mp h
  obtain ⟨e, he, h⟩ := Option.bind_eq_some_iff.mp h
  obtain ⟨n, _, h⟩ := Option.bind_eq_some_iff.mp h
  cases h
  have := whole_length hw
  have := fraction_length hf
  have := exponent_length he
  omega

theorem after?_length {start text rest : List Char} (h : after? start text = some rest) :
    rest.length ≤ text.length := by
  fun_induction after? start text with
  | case1 => cases h; exact Nat.le_refl _
  | case2 => cases h
  | case3 a start text ih => exact Nat.le_succ_of_le (ih h)
  | case4 => cases h

theorem token?_length {c : Char} {rest rest' : List Char} {t : Token}
    (h : token? c rest = some (t, rest')) : rest'.length ≤ rest.length := by
  unfold token? at h
  split at h
  iterate 6 cases h; exact Nat.le_refl _
  · obtain ⟨r, hr, he⟩ := Option.map_eq_some_iff.mp h
    cases he; exact Nat.le_of_lt (stringBody_length hr)
  iterate 3
    obtain ⟨r, hr, he⟩ := Option.map_eq_some_iff.mp h
    cases he; exact after?_length hr
  · obtain ⟨r, hr, he⟩ := Option.map_eq_some_iff.mp h
    cases he; exact Nat.le_of_lt (magnitude_length hr)
  · split at h
    · obtain ⟨r, hr, he⟩ := Option.map_eq_some_iff.mp h
      cases he; exact Nat.le_of_lt_succ (magnitude_length hr)
    · cases h

def tokens? (text : List Char) : Option (List Token) :=
  match text with
  | [] => some []
  | c :: rest =>
    if isSpace c then tokens? rest
    else
      match _h : token? c rest with
      | some (t, rest) => (tokens? rest).map (t :: ·)
      | none => none
termination_by text.length
decreasing_by
  · exact Nat.lt_succ_self _
  · exact Nat.lt_succ_of_le (token?_length _h)

/-! ### Values -/

/-- An array or an object that is still open. -/
inductive Frame where
  /-- The items so far, the last one first. -/
  | array (items : List Json)
  /-- The fields so far, and the name of the next one. -/
  | object (fields : List (String × Json)) (name : String)

/-- How many arrays and objects may be open at once. -/
def maxDepth : Nat := 512

/-- Opens an array or an object that is not empty. -/
def push? (frame : Frame) (stack : List Frame) : Option (List Frame) :=
  if stack.length < maxDepth then some (frame :: stack) else none

mutual

/-- Reads a value, which is then put into the innermost open array or object. -/
def readValue (stack : List Frame) : List Token → Option Json
  | .scalar v :: ts => finish v stack ts
  | .openArray :: .closeArray :: ts => finish (.array []) stack ts
  | .openArray :: ts =>
    match push? (.array []) stack with
    | some stack => readValue stack ts
    | none => none
  | .openObject :: .closeObject :: ts => finish (.object []) stack ts
  | .openObject :: .scalar (.string name) :: .colon :: ts =>
    match push? (.object [] name) stack with
    | some stack => readValue stack ts
    | none => none
  | _ => none

/-- Puts a value in its place and goes on with what follows it. -/
def finish (v : Json) (stack : List Frame) (ts : List Token) : Option Json :=
  match ts with
  | [] => match stack with
    | [] => some v
    | _ => none
  | .comma :: ts => match stack, ts with
    | .array items :: stack, ts => readValue (.array (v :: items) :: stack) ts
    | .object fields name :: stack, .scalar (.string next) :: .colon :: ts =>
      readValue (.object (replaceOrAppend name v fields) next :: stack) ts
    | _, _ => none
  | .closeArray :: ts => match stack with
    | .array items :: stack => finish (.array (v :: items).reverse) stack ts
    | _ => none
  | .closeObject :: ts => match stack with
    | .object fields name :: stack =>
      finish (.object (replaceOrAppend name v fields)) stack ts
    | _ => none
  | _ => none

end

/-- Reads the one value of a text. -/
def parse? (text : List Char) : Option Json := do
  readValue [] (← tokens? text)

end ClockNet.Json

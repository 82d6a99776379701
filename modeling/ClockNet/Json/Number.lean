import ClockNet.Word

/-! Numbers of a JSON text: a sign, a mantissa below two to the 64 and a decimal exponent,
which are not brought into a normal form. So `1.0` is not the integer `1`, and a number is
written with the digits that it was read with. -/

namespace ClockNet.Json

/-- A decimal number, its magnitude the mantissa times ten to the exponent. -/
structure Number where
  negative : Bool := false
  mantissa : Nat
  exponent : Int := 0
deriving DecidableEq, Inhabited

namespace Number

def ofNat (n : Nat) : Number := { mantissa := n }

def ofInt (i : Int) : Number := { negative := i < 0, mantissa := i.natAbs }

/-- The number as an unsigned integer, which it is if it has no sign and no exponent. -/
def toNat? (n : Number) : Option Nat :=
  if n.negative || n.exponent ≠ 0 then none else some n.mantissa

/-- The number as a signed word, which it is if it has no exponent. -/
def toInt? (n : Number) : Option Int :=
  if n.exponent ≠ 0 then none
  else some (word (if n.negative then -n.mantissa else n.mantissa))

/-! ### Reading digits -/

/-- Appends a digit to the mantissa, if it still fits. -/
def pushDigit? (mantissa : Nat) (digit : Char) : Option Nat :=
  let next := mantissa * 10 + (digit.toNat - '0'.toNat)
  if next < unsignedLimit then some next else none

/-- Takes the digits before the point. One that does not fit is dropped, and the exponent
makes up for its place. -/
def pushWhole (n : Number) (digit : Char) : Number :=
  match pushDigit? n.mantissa digit with
  | some mantissa => { n with mantissa }
  | none => { n with exponent := n.exponent + 1 }

/-- Takes the digits after the point. One that does not fit is dropped. -/
def pushFraction (n : Number) (digit : Char) : Number :=
  match pushDigit? n.mantissa digit with
  | some mantissa => { n with mantissa, exponent := n.exponent - 1 }
  | none => n

/-- The nearest number that is not below `low` and not above `high`. -/
def clamp (low high i : Int) : Int := max low (min i high)

/-- Adds the exponent that a number is written with. Both the magnitude of that one and
the sum stay within words of 16 bits. -/
def scale (n : Number) (e : Int) : Number :=
  { n with exponent := clamp (-0x8000) 0x7fff (n.exponent + clamp (-0x7fff) 0x7fff e) }

/-- The number with the given parts, if an exponent of 16 bits makes up for all digits before
the point that do not fit. -/
def ofDigits? (negative : Bool) (whole fraction : List Char) (exponent : Int) : Option Number :=
  let n := whole.foldl pushWhole { negative, mantissa := 0 }
  if 0x7fff < n.exponent then none else some ((fraction.foldl pushFraction n).scale exponent)

/-! ### Writing -/

/-- Digits with a point before the last `places` of them, after at least one digit. -/
def withPoint (digits : List Char) (places : Nat) : List Char :=
  let padded := List.replicate (places + 1 - digits.length) '0' ++ digits
  padded.take (padded.length - places) ++ '.' :: padded.drop (padded.length - places)

/-- The exponent as it is written after a number's digits. -/
def exponentSuffix (exponent : Int) : List Char := 'e' :: (toString exponent).toList

/-- The power that places of a fraction leave: with its sign, or not at all if it is zero. -/
def signedSuffix (power : Int) : List Char :=
  if power = 0 then [] else if 0 < power then 'e' :: '+' :: (toString power).toList
  else exponentSuffix power

/-- Digits with a point after the first, if there are more. -/
def leadingPoint : List Char → List Char
  | d :: e :: rest => d :: '.' :: e :: rest
  | digits => digits

/-- Digits with a point after the first, and the power of ten that stands for the places this
moves the point by. -/
def scientific (digits : List Char) (exponent : Int) : List Char :=
  let power := exponent + (digits.length - 1)
  leadingPoint digits ++ if exponent < 0 then signedSuffix power else exponentSuffix power

/-- All digits of the mantissa, with a point for up to 17 places after it, with zeros for
a positive exponent as long as there are at most 20 digits in all, otherwise with an
exponent. -/
def chars (n : Number) : List Char :=
  let digits := Nat.toDigits 10 n.mantissa
  let magnitude :=
    if n.mantissa = 0 then ['0']
    else if n.exponent = 0 then digits
    else if n.exponent < 0 then
      if -18 < n.exponent then withPoint digits n.exponent.natAbs
      else scientific digits n.exponent
    else if digits.length + n.exponent.natAbs ≤ 20 then
      digits ++ List.replicate n.exponent.natAbs '0'
    else scientific digits n.exponent
  if n.negative then '-' :: magnitude else magnitude

/-- A mantissa keeps its digits when it is written, whatever its exponent. -/
example : (List.map (fun n : Number => String.ofList n.chars)
    [⟨false, 100, -2⟩, ⟨true, 25, -2⟩, ⟨false, 1, 1⟩, ⟨false, 10 ^ 19, 11⟩, ⟨true, 0, 0⟩]) =
    ["1.00", "-0.25", "10", "1.0000000000000000000e30", "-0"] := by cbv

/-- Of a fraction, only a power other than zero is written, and it has a sign. -/
example : (List.map (fun n : Number => String.ofList n.chars)
    [⟨false, 12, -18⟩, ⟨false, 10 ^ 18, -18⟩, ⟨true, 10 ^ 19, -18⟩]) =
    ["1.2e-17", "1.000000000000000000", "-1.0000000000000000000e+1"] := by cbv

end Number

end ClockNet.Json

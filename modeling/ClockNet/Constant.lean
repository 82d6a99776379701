import ClockNet.Word

/-! Constants: sequences of three-valued bits, least significant bit first. A constant
stands for a number when each bit is known, and for a text when read as bytes. -/

namespace ClockNet

/-- One bit of a constant: 0, 1, or a value that is not known. -/
inductive Trit where
  | unknown | zero | one
deriving DecidableEq, Repr, Inhabited, Ord

namespace Trit

def ofBool : Bool → Trit
  | false => zero
  | true => one

/-- Reads one character; high impedance, don't-care and unmarked bits count as unknown. -/
def ofChar? : Char → Option Trit
  | '0' => some zero
  | '1' => some one
  | 'x' | 'X' | 'z' | 'Z' | '-' | 'm' => some unknown
  | _ => none

def toChar : Trit → Char
  | unknown => 'x'
  | zero => '0'
  | one => '1'

def flip : Trit → Trit
  | unknown => unknown
  | zero => one
  | one => zero

theorem ofChar?_toChar (t : Trit) : ofChar? t.toChar = some t := by cases t <;> rfl

end Trit

/-- A constant, least significant bit first. -/
abbrev Const := List Trit

namespace Const

def unknown (width : Nat) : Const := List.replicate width .unknown

def zero (width : Nat) : Const := List.replicate width .zero

/-- The low `width` bits of a 64-bit number; places from 64 on are 0. -/
def ofNat (value width : Nat) : Const :=
  (List.range width).map fun i => .ofBool (i < 64 && value.testBit i)

/-- The low `width` bits of an integer in two's complement of 64 bits. -/
def ofInt (value : Int) (width : Nat) : Const := ofNat (value % unsignedLimit).toNat width

/-- The number a constant stands for: the sum of the powers of two at its ones. -/
def value : Const → Nat
  | [] => 0
  | t :: rest => (if t = .one then 1 else 0) + 2 * value rest

/-- A constant is a 64-bit number if no bit is unknown and no 1 is at place 64 or above. -/
def toNat? (c : Const) : Option Nat :=
  if c.any (· == .unknown) || (c.drop 64).any (· == .one) then none else some c.value

/-- A constant is true if any of its bits is 1. -/
def isTrue (c : Const) : Bool := c.any (· == .one)

/-- The constant written most significant bit first; none if a character is no bit. -/
def ofChars? (chars : List Char) : Option Const := chars.reverse.mapM Trit.ofChar?

/-- The bits as characters, most significant bit first. -/
def toChars (c : Const) : List Char := (c.map Trit.toChar).reverse

def ofString? (text : String) : Option Const := ofChars? text.toList

def bits (c : Const) : String := String.ofList c.toChars

def zeroExtend (c : Const) (width : Nat) : Const := c ++ zero (width - c.length)

end Const

end ClockNet

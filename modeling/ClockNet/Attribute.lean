import ClockNet.Constant
import ClockNet.Table.Sorted
import ClockNet.Text.Utf8

/-! Attributes and parameters: named values of modules, wires and cells. A value is a
constant or a text; a constant can hold a text as bytes, and some attributes steer the
insertion of clock buffers. -/

namespace ClockNet

namespace Const

def ofByte (b : UInt8) : Const := (List.range 8).map fun i => .ofBool (b.toNat.testBit i)

/-- A text as a constant of eight bits for each byte, its last byte lowest. -/
def ofText (text : String) : Const := (Text.encode text.toList).reverse.flatMap ofByte

/-- The byte of up to eight bits; bits that are not known read as 0. -/
def toByte (c : Const) : UInt8 := UInt8.ofNat (Const.value (c.take 8))

/-- The bytes of a constant from its lowest bits on; the last one may be short. -/
def bytes : Const → List UInt8
  | [] => []
  | t :: rest => toByte (t :: rest) :: bytes (rest.drop 7)
termination_by c => c.length
decreasing_by
  simp only [List.length_drop, List.length_cons]
  omega

/-- The text held in a constant. Zero bytes are padding and do not belong to it. -/
def text (c : Const) : String :=
  String.ofList (Text.decodeLossy (c.bytes.filter (· ≠ 0)).reverse)

end Const

/-- The value of an attribute or a parameter. -/
inductive Value where
  | const (bits : Const)
  | text (content : String)
deriving DecidableEq, Ord

namespace Value

instance : Inhabited Value := ⟨.const []⟩

def ofBool (b : Bool) : Value := .const (Const.ofNat (if b then 1 else 0) 32)

/-- The low 32 bits of an integer. -/
def ofInt (i : Int) : Value := .const (Const.ofInt i 32)

/-- A constant is true if a bit is 1, a text if it is not empty. -/
def isTrue : Value → Bool
  | .const c => c.isTrue
  | .text s => s != ""

def const? : Value → Option Const
  | .const c => some c
  | .text _ => none

def toText : Value → String
  | .const c => c.text
  | .text s => s

end Value

abbrev Attributes := SortedTable Value

namespace Attributes

/-- An attribute that is present and true. -/
def flag (a : Attributes) (name : String) : Bool := (a.get? name).any Value.isTrue

end Attributes

/-! ### The attributes that clock buffering reads -/

namespace Attribute

/-- Marks the module at the top of the hierarchy. -/
def top : String := "top"
/-- Marks a module without contents. -/
def blackbox : String := "blackbox"
/-- Marks a module whose contents are for simulation only. -/
def whitebox : String := "whitebox"
/-- Marks a port driven by a clock buffer. -/
def driver : String := "clkbuf_driver"
/-- Marks a port that needs a buffered clock. -/
def sink : String := "clkbuf_sink"
/-- Names the input that an inverted clock output follows. -/
def inverts : String := "clkbuf_inv"
/-- Keeps buffers off a wire. -/
def inhibit : String := "clkbuf_inhibit"

end Attribute

end ClockNet

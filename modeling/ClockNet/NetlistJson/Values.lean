import ClockNet.Attribute
import ClockNet.Direction
import ClockNet.Json.Printer
import ClockNet.Text.Quoted

/-! Attribute values in a JSON netlist. Constants and texts are both strings there: one
made of bits only is a constant, and a text that looks like a constant carries a space at
its end. -/

namespace ClockNet.NetlistJson

/-- What a JSON netlist of the wrong shape has wrong. -/
inductive Fault where
  | unsupportedValue (found : Json)
  | invalidBit (found : Json)
  | expectedBits (found : Json)
  | invalidOffset (found : Json) (wire : String)
  | invalidDirection (found : Json)
  | duplicateNet (name module : String)
  | duplicateModule (name : String)
  | duplicateCell (name : String)
  | missingType (cell : String)
  | missingModules
deriving Inhabited

namespace Fault

open Text (quoted)

def message : Fault → String
  | unsupportedValue found => "unsupported attribute value " ++ found.inMessage
  | invalidBit found => "invalid bit " ++ found.inMessage
  | expectedBits found => "expected bit list, found " ++ found.inMessage
  | invalidOffset found wire => "invalid offset " ++ found.inMessage ++ " of " ++ quoted wire
  | invalidDirection found => "invalid port direction " ++ found.inMessage
  | duplicateNet name module =>
    "duplicate net name " ++ quoted name ++ " in module " ++ quoted module
  | duplicateModule name => "duplicate module " ++ quoted name
  | duplicateCell name => "duplicate cell " ++ quoted name
  | missingType cell => "cell " ++ quoted cell ++ " has no type"
  | missingModules => "missing \"modules\" object"

end Fault

/-- The characters that a written constant consists of. -/
def isBit (c : Char) : Bool := c = '0' || c = '1' || c = 'x' || c = 'z'

/-- A text that reads as a constant. -/
def looksConstant (s : List Char) : Bool := !s.isEmpty && s.all isBit

/-- The value that a string stands for. -/
def valueOfString (s : String) : Value :=
  if looksConstant s.toList then .const ((Const.ofString? s).getD [])
  else
    match s.toList.reverse with
    | ' ' :: front =>
      let front := front.reverse
      if front.isEmpty || looksConstant front then .text (String.ofList front) else .text s
    | _ => .text s

/-- The value of an attribute or a parameter; a number counts as 32 bits. -/
def importValue (j : Json) : Except Fault Value :=
  match j with
  | .string s => .ok (valueOfString s)
  | j =>
    match j.toNat?, j.toInt? with
    | some n, _ => .ok (.const (Const.ofNat n 32))
    | none, some i => .ok (.ofInt i)
    | none, none => .error (.unsupportedValue j)

def exportValue : Value → Json
  | .const c => .string c.bits
  | .text s => .string (if looksConstant s.toList then s ++ " " else s)

/-- Values by name; a repeated name takes its last value. -/
def importAttributes (j : Json) : Except Fault Attributes :=
  j.fields.foldlM (fun a field => a.insert field.1 <$> importValue field.2) .empty

def exportAttributes (a : Attributes) : Json :=
  .object (a.entries.map fun e => (e.1, exportValue e.2))

/-! ### Directions -/

def importDirection (j : Json) : Except Fault Direction :=
  match j with
  | .string "input" => .ok .input
  | .string "output" => .ok .output
  | .string "inout" => .ok .inout
  | j => .error (.invalidDirection j)

def exportDirection : Direction → Json
  | .input => .string "input"
  | .output => .string "output"
  | .inout => .string "inout"

end ClockNet.NetlistJson

import ClockNet.Constant
import ClockNet.Text.Quoted

/-! Tokens of the textual netlist format: how each is spelled in a file and how messages
name it. -/

namespace ClockNet.Rtlil

inductive Token where
  | word (letters : String)
  | name (name : String)
  | text (content : String)
  | int (value : Int)
  | const (bits : Const)
  | mark (c : Char)
deriving DecidableEq, Inhabited

/-- A token with the line on which it ends. -/
structure Located where
  token : Token
  line : Nat
deriving DecidableEq, Inhabited

/-- The character as three octal digits. -/
def octal (c : Char) : List Char :=
  let n := c.toNat
  [n / 64, n / 8 % 8, n % 8].map Nat.digitChar

/-- One character of a quoted text: quotes and backslashes are escaped, a new line and a
tab have a letter, and the other ASCII controls are written in octal. -/
def spellChar (c : Char) : List Char :=
  if c = '"' then ['\\', '"']
  else if c = '\\' then ['\\', '\\']
  else if c = '\n' then ['\\', 'n']
  else if c = '\t' then ['\\', 't']
  else if c.toNat < 0x20 || c.toNat = 0x7f then '\\' :: octal c
  else [c]

def spellText (content : String) : String :=
  String.ofList ('"' :: content.toList.flatMap spellChar ++ ['"'])

/-- A public name carries a backslash, a name that begins with a dollar sign does not. -/
def spellName (name : String) : String :=
  if name.toList.head? = some '$' then name else "\\" ++ name

/-- The width in decimal, an apostrophe, and the bits. -/
def spellConst (c : Const) : String := toString c.length ++ "'" ++ c.bits

namespace Token

def spell : Token → String
  | word letters => letters
  | name n => spellName n
  | text content => spellText content
  | int value => toString value
  | const c => spellConst c
  | mark c => c.toString

/-- A piece of source between backticks. -/
def ticked (source : String) : String := "\x60" ++ source ++ "\x60"

/-- How messages name a token. -/
def describe : Token → String
  | word letters => ticked letters
  | name n => "identifier " ++ ticked n
  | text _ => "string"
  | int value => "integer " ++ ticked (toString value)
  | const c => "constant " ++ ticked (spellConst c)
  | mark c => ticked c.toString

end Token

end ClockNet.Rtlil

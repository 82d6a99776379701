import ClockNet.Rtlil.Token

/-! Why a netlist text is refused, and on which line. -/

namespace ClockNet.Rtlil

/-- What a text that cannot be cut into tokens has wrong. -/
inductive LexicalFault where
  | emptyName
  | unterminatedText
  | invalidEscape
  | invalidNumber (digits : String)
  | tooManyBits (bits : String) (width : Nat)
  | unexpectedChar (c : Char)
deriving DecidableEq, Inhabited

/-- What a token was expected to be. -/
inductive Expected where
  | name | int | value | signal
deriving DecidableEq, Inhabited

/-- The construct in which a token has no meaning. -/
inductive Place where
  | cell | module | design
deriving DecidableEq, Inhabited

/-- What a sequence of tokens has wrong. -/
inductive Fault where
  | lexical (fault : LexicalFault)
  | endOfInput
  | expected (what : Expected) (found : Token)
  | expectedMark (c : Char)
  | negative (value : Int)
  | unknownWire (name : String)
  | invalidSlice (first last : Int) (wire : String)
  | duplicateWire (name : String)
  | duplicateCell (name : String)
  | duplicateModule (name : String)
  | widthMismatch (driven driver : Nat)
  | unexpected (place : Place) (found : Token)
deriving DecidableEq, Inhabited

/-- A fault and the line on which it was found. -/
structure ParseError where
  line : Nat
  fault : Fault
deriving DecidableEq, Inhabited

open Token (ticked)

namespace LexicalFault

def message : LexicalFault → String
  | emptyName => "empty identifier"
  | unterminatedText => "unterminated string"
  | invalidEscape => "invalid escape"
  | invalidNumber digits => "invalid number " ++ ticked digits
  | tooManyBits bits width =>
    "constant " ++ ticked bits ++ " is wider than " ++ toString width ++ " bits"
  | unexpectedChar c => "unexpected character " ++ Text.quotedLetter c

end LexicalFault

namespace Fault

def nameOf : Expected → String
  | .name => "identifier"
  | .int => "integer"
  | .value => "constant"
  | .signal => "signal"

def message : Fault → String
  | lexical fault => fault.message
  | endOfInput => "unexpected end of input"
  | expected what found => "expected " ++ nameOf what ++ ", found " ++ found.describe
  | expectedMark c => "expected " ++ ticked c.toString
  | negative value => "expected non-negative integer, found " ++ toString value
  | unknownWire name => "unknown wire " ++ ticked name
  | invalidSlice first last wire =>
    "invalid slice [" ++ toString first ++ ":" ++ toString last ++ "] of " ++ ticked wire
  | duplicateWire name => "duplicate wire " ++ ticked name
  | duplicateCell name => "duplicate cell " ++ ticked name
  | duplicateModule name => "duplicate module " ++ ticked name
  | widthMismatch driven driver =>
    "connection width mismatch (" ++ toString driven ++ " vs " ++ toString driver ++ ")"
  | unexpected .cell found => "unexpected " ++ found.describe ++ " in cell"
  | unexpected .module found => "unsupported " ++ found.describe ++ " in module"
  | unexpected .design found => "unexpected " ++ found.describe

end Fault

namespace ParseError

def message (e : ParseError) : String := "line " ++ toString e.line ++ ": " ++ e.fault.message

end ParseError

end ClockNet.Rtlil

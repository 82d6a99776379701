import ClockNet.Selection
import ClockNet.Text.Quoted
import ClockNet.Text.Split

/-! Selections from text. Words are separated by white space; a word that begins with a
percent sign is an operator, any other word a term `module/kind:pattern` of which only one
part need be there. -/

namespace ClockNet

/-- Why a word of a selection is refused. -/
inductive SelectionFault where
  | unknownOperator
  | missingAttribute
  | missingPattern
  | missingOperand
  | noWords
deriving DecidableEq, Inhabited

/-- A fault and the word, or for an empty selection the whole text, that has it. -/
structure SelectionError where
  term : String
  fault : SelectionFault
deriving DecidableEq, Inhabited

namespace SelectionError

def reason : SelectionFault → String
  | .unknownOperator => "unknown operator"
  | .missingAttribute => "missing attribute name"
  | .missingPattern => "missing name pattern"
  | .missingOperand => "operator needs two operands"
  | .noWords => "empty selection"

def message (e : SelectionError) : String :=
  "invalid selection term " ++ Text.quoted e.term ++ ": " ++ reason e.fault

end SelectionError

namespace Selection

/-- The module part of a term, which ends at the first slash and has no colon, and the
rest. -/
def modulePart (word : List Char) : Option (List Char) × List Char :=
  match Text.splitAtFirst '/' word with
  | some (before, after) => if before.contains ':' then (none, word) else (some before, after)
  | none => (none, word)

/-- An attribute by name, with the pattern after the first equals sign if there is one. -/
def attributePattern (text : List Char) : Except SelectionFault WirePattern :=
  let (name, expected) := match Text.splitAtFirst '=' text with
    | some (name, expected) => (name, some (String.ofList expected))
    | none => (text, none)
  if name = [] then .error .missingAttribute
  else .ok (.tagged (String.ofList name) expected)

/-- A pattern for names, which has at least one character. -/
def namePattern (kind : String → WirePattern) (glob : List Char) :
    Except SelectionFault WirePattern :=
  if glob = [] then .error .missingPattern else .ok (kind (String.ofList glob))

/-- A term other than an operator. A pattern without a kind is a module's name, or after
a module part a wire's name. -/
def term (word : List Char) : Except SelectionFault SelectionWord :=
  let (module, rest) := modulePart word
  let module := module.map String.ofList
  let wires := fun p => (SelectionWord.term module ∘ some) <$> p
  match rest with
  | 'w' :: ':' :: glob => wires (namePattern .named glob)
  | 'i' :: ':' :: glob => wires (namePattern .input glob)
  | 'o' :: ':' :: glob => wires (namePattern .output glob)
  | 'x' :: ':' :: glob => wires (namePattern .port glob)
  | 'a' :: ':' :: text => wires (attributePattern text)
  | rest =>
    if module.isNone then .ok (.term (some (String.ofList rest)) none)
    else wires (namePattern .named rest)

def word (text : List Char) : Except SelectionFault SelectionWord :=
  match text with
  | ['%', 'u'] => .ok .union
  | ['%', 'i'] => .ok .intersection
  | ['%', 'd'] => .ok .difference
  | '%' :: _ => .error .unknownOperator
  | text => term text

/-- The number of sets on the stack after a word that finds `depth` of them, if it finds
enough. -/
def depthAfter (depth : Nat) : SelectionWord → Option Nat
  | .term .. => some (depth + 1)
  | _ => if depth < 2 then none else some (depth - 1)

/-- Reads words one by one, keeping the number of sets on the stack. -/
def readWords (depth : Nat) : List (List Char) → Except SelectionError (List SelectionWord)
  | [] => .ok []
  | text :: rest =>
    match word text with
    | .error fault => .error ⟨String.ofList text, fault⟩
    | .ok w =>
      match depthAfter depth w with
      | none => .error ⟨String.ofList text, .missingOperand⟩
      | some depth => (w :: ·) <$> readWords depth rest

/-- Reads a selection, which has at least one word. -/
def parse (text : String) : Except SelectionError Selection :=
  match readWords 0 (Text.words text.toList) with
  | .error e => .error e
  | .ok [] => .error ⟨text, .noWords⟩
  | .ok words => .ok ⟨words⟩

end Selection

end ClockNet

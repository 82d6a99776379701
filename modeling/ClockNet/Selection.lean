import ClockNet.Glob
import ClockNet.Module

/-! Selections restrict an operation to some wires of a design. A selection is a list of
terms and operators in postfix order: a term stands for the wires it matches, an operator
joins the two topmost sets on a stack, and the sets left at the end are united. -/

namespace ClockNet

/-- What a term asks of a wire. -/
inductive WirePattern where
  /-- The wire's name matches. -/
  | named (glob : String)
  /-- An input whose name matches. -/
  | input (glob : String)
  /-- An output whose name matches. -/
  | output (glob : String)
  /-- A port whose name matches. -/
  | port (glob : String)
  /-- The attribute is present, with a matching value if one is given. -/
  | tagged (name : String) (expected : Option String)
deriving DecidableEq, Inhabited

namespace WirePattern

/-- A text matches as a pattern, a constant as its number or its bits. -/
def valueMatches (expected : String) : Value → Bool
  | .text s => Glob.covers expected s
  | .const c => c.toNat?.any (fun n => toString n == expected) || c.bits == expected

def selects (w : Wire) : WirePattern → Bool
  | named glob => Glob.covers glob w.name
  | input glob => w.isInput && Glob.covers glob w.name
  | output glob => w.isOutput && Glob.covers glob w.name
  | port glob => w.isPort && Glob.covers glob w.name
  | tagged name none => (w.attributes.get? name).isSome
  | tagged name (some expected) => (w.attributes.get? name).any (valueMatches expected)

end WirePattern

inductive SelectionWord where
  /-- The wires matched by `object`, all of them if it is missing, in the modules whose
  name matches `module`. -/
  | term (module : Option String) (object : Option WirePattern)
  | union
  | intersection
  | difference
deriving DecidableEq, Inhabited

/-- A selection in postfix order. -/
structure Selection where
  words : List SelectionWord
deriving DecidableEq, Inhabited

namespace Selection

/-- The effect of one word on the stack of memberships, topmost first. -/
def push (term : Option String → Option WirePattern → Bool) (stack : List Bool) :
    SelectionWord → List Bool
  | .term module object => term module object :: stack
  | .union => match stack with
    | b :: a :: rest => (a || b) :: rest
    | stack => stack
  | .intersection => match stack with
    | b :: a :: rest => (a && b) :: rest
    | stack => stack
  | .difference => match stack with
    | b :: a :: rest => (a && !b) :: rest
    | stack => stack

/-- Membership of one object, given its membership in each term. -/
def evaluate (s : Selection) (term : Option String → Option WirePattern → Bool) : Bool :=
  (s.words.foldl (push term) []).any id

/-- A module name matches where no pattern is given or the pattern matches. -/
def moduleMatches (m : Module) (glob : Option String) : Bool :=
  glob.all fun g => Glob.covers g m.name

def selectsWire (s : Selection) (m : Module) (w : Wire) : Bool :=
  s.evaluate fun glob object => moduleMatches m glob && object.all (WirePattern.selects w)

/-- The module itself is selected, terms with an object naming no module, or one of its
wires is. -/
def selectsModule (s : Selection) (m : Module) : Bool :=
  (s.evaluate fun glob object => object.isNone && moduleMatches m glob) ||
    m.wires.any (s.selectsWire m)

end Selection

end ClockNet

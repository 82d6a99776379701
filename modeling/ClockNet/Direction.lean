/-! The direction of a port, seen from inside the module that has it. -/

namespace ClockNet

/-- The direction of a port; an inout port is both an input and an output. -/
inductive Direction where
  | input | output | inout
deriving DecidableEq, Repr, Inhabited

namespace Direction

def isInput : Direction → Bool
  | input | inout => true
  | output => false

def isOutput : Direction → Bool
  | output | inout => true
  | input => false

/-- The direction with the given flags; none for a wire that is no port. -/
def ofFlags : (input output : Bool) → Option Direction
  | false, false => none
  | true, false => some .input
  | false, true => some .output
  | true, true => some .inout

end Direction

end ClockNet

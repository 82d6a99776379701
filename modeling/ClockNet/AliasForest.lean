import ClockNet.Alias

/-! Aliases as a forest. A bit that does not stand for its net hangs on another bit of the net,
and a look-up climbs from bit to bit up to one that hangs on none. Before nets are joined, the
bits passed on the way up are hung onto the one that was found, so that later climbs are short.
Loops have no bound here: a climb that never ends has no result. -/

namespace ClockNet

/-- The bits that hang on others, newest first. The newest entry for a bit counts. -/
structure AliasForest where
  parents : List (Bit × Bit) := []
deriving DecidableEq

namespace AliasForest

def parent? (f : AliasForest) (b : Bit) : Option Bit :=
  (f.parents.find? (·.1 == b)).map (·.2)

/-- Hangs a bit onto another one, in place of the one that it hung on. -/
def hang (f : AliasForest) (child parent : Bit) : AliasForest := ⟨(child, parent) :: f.parents⟩

/-- The bit that stands for the net of `b`: the end of the climb. -/
def climb (f : AliasForest) (b : Bit) : Option Bit :=
  match f.parent? b with
  | some p => f |>.climb p
  | none => some b
partial_fixpoint

/-- Hangs the bits from `b` upwards onto the root of their tree. -/
def compress (f : AliasForest) (b root : Bit) : Option AliasForest :=
  match f.parent? b with
  | some p => if p = root then some f else f.hang b root |>.compress p root
  | none => some f
partial_fixpoint

/-- Looks up the bit that stands for a net, and shortens the way to it. -/
def find (f : AliasForest) (b : Bit) : Option (Bit × AliasForest) := do
  let root ← f.climb b
  let f ← f.compress b root
  some (root, f)

/-- Joins the nets of two bits. A constant never hangs on anything, so two constants are never
joined; otherwise the net of the first bit comes to hang on that of the second one. -/
def join (f : AliasForest) (a b : Bit) : Option AliasForest := do
  let (ra, f) ← f.find a
  let (rb, f) ← f.find b
  if ra = rb then some f
  else
    match ra.isConst, rb.isConst with
    | true, true => some f
    | true, false => some (f.hang rb ra)
    | false, _ => some (f.hang ra rb)

def add (f : AliasForest) (driven driver : Signal) : Option AliasForest :=
  if driven.length = driver.length then
    (driven.zip driver).foldlM (fun f p => f.join p.1 p.2) f
  else none

def ofConnections (connections : List (Signal × Signal)) : Option AliasForest :=
  connections.foldlM (fun f c => f.add c.1 c.2) {}

def resolve (f : AliasForest) (s : Signal) : Option Signal := s.mapM f.climb

end AliasForest

end ClockNet

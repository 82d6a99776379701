import ClockNet.Signal

/-! Aliases. Connections make bits names of one net; an alias map sends every bit to the
bit that stands for its net. The map is a list of links, each from a bit that stood for a
net to the bit that stands for it now, so a bit is resolved by taking the links in the
order in which they were made. -/

namespace ClockNet

/-- The links between nets, newest first. -/
structure AliasMap where
  links : List (Bit × Bit) := []
deriving DecidableEq

namespace AliasMap

def follow (link : Bit × Bit) (b : Bit) : Bit := if b = link.1 then link.2 else b

/-- The bit that stands for the net of `b`. -/
def root (m : AliasMap) (b : Bit) : Bit := m.links.foldr follow b

def link (m : AliasMap) (child parent : Bit) : AliasMap := ⟨(child, parent) :: m.links⟩

@[simp] theorem root_empty (b : Bit) : (⟨[]⟩ : AliasMap).root b = b := rfl

@[simp] theorem root_link (m : AliasMap) (child parent b : Bit) :
    (m.link child parent).root b = if m.root b = child then parent else m.root b := rfl

/-- Joins the nets of two bits. A constant stands for its net; otherwise the net of the
second bit gives the bit that stands for both. Two constants are never joined. -/
def join (m : AliasMap) (a b : Bit) : AliasMap :=
  let ra := m.root a
  let rb := m.root b
  if ra = rb then m
  else
    match ra.isConst, rb.isConst with
    | true, true => m
    | true, false => m.link rb ra
    | false, _ => m.link ra rb

def add (m : AliasMap) (driven driver : Signal) : AliasMap :=
  (driven.zip driver).foldl (fun m p => m.join p.1 p.2) m

def add? (m : AliasMap) (driven driver : Signal) : Option AliasMap :=
  if driven.length = driver.length then some (m.add driven driver) else none

def ofConnections (connections : List (Signal × Signal)) : AliasMap :=
  connections.foldl (fun m c => m.add c.1 c.2) {}

/-- Every bit of a signal replaced by the bit that stands for its net. -/
def resolve (m : AliasMap) (s : Signal) : Signal := s.map m.root

end AliasMap

end ClockNet

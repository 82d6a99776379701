import ClockNet.Constant

/-! Bits and signals. A signal is a sequence of bits, least significant first; each bit is
a constant or one bit of a wire. A signal falls into chunks, the longest runs of constants
or of consecutive bits of one wire. -/

namespace ClockNet

/-- A wire of a module, by the order in which the wires were added. -/
abbrev WireId := Nat

/-- The number of wires that a module may have: their ids fit in 32 bits with one to spare. -/
def wireLimit : Nat := 0xffffffff

/-- The id that a number is, if a module may have that many wires. -/
def WireId.ofNat? (n : Nat) : Option WireId := if n < wireLimit then some n else none

/-- A constant bit, or the bit of a wire at an offset from its least significant one. -/
inductive Bit where
  | const (value : Trit)
  | wire (id : WireId) (offset : Nat)
deriving DecidableEq, Repr, Inhabited, Ord

namespace Bit

def isConst : Bit → Bool
  | const _ => true
  | wire .. => false

def const? : Bit → Option Trit
  | const t => some t
  | wire .. => none

def wire? : Bit → Option WireId
  | const _ => none
  | wire id _ => some id

/-- Two constants, or a bit of a wire and the next bit of the same wire. -/
def continues : Bit → Bit → Bool
  | const _, const _ => true
  | wire a i, wire b j => a == b && i + 1 == j
  | _, _ => false

end Bit

/-- A sequence of bits, least significant first. -/
abbrev Signal := List Bit

namespace Signal

/-- The most bits that a signal may have: at 16 bytes each, the bytes of all are still counted
by a signed word. -/
def maxLength : Nat := 0x7ffffffffffffff

/-- All bits of a wire of the given width. -/
def ofWire (id : WireId) (width : Nat) : Signal := (List.range width).map (Bit.wire id)

/-- The bits of a wire from one place to another, both included. -/
def ofPlaces (id : WireId) (low high : Nat) : Signal :=
  (List.range' low (high + 1 - low)).map (Bit.wire id)

def ofConst (c : Const) : Signal := c.map Bit.const

/-- The constant a signal stands for, if it has no bit of a wire. -/
def const? (s : Signal) : Option Const := s.mapM Bit.const?

def single? : Signal → Option Bit
  | [b] => some b
  | _ => none

/-- The wire of which the signal is all bits in order, given the wire's width. -/
def whole? (s : Signal) (width : Nat) : Option WireId :=
  match s.head? with
  | some (.wire id _) => if s.length = width ∧ s = ofWire id s.length then some id else none
  | _ => none

/-- Puts a bit before the chunks of what follows it. -/
def consChunk (b : Bit) : List Signal → List Signal
  | (next :: chunk) :: rest =>
    if b.continues next then (b :: next :: chunk) :: rest else [b] :: (next :: chunk) :: rest
  | chunks => [b] :: chunks

/-- The longest runs of constants or of consecutive bits of one wire, in order. -/
def chunks : Signal → List Signal
  | [] => []
  | b :: rest => consChunk b (chunks rest)

/-- A bit goes to the last chunk if it goes on from the last bit of it, and begins a chunk
otherwise. -/
def appendBit (chunks : List Signal) (b : Bit) : List Signal :=
  match chunks.getLast? with
  | some chunk =>
    if chunk.getLast?.any (·.continues b) then chunks.dropLast ++ [chunk ++ [b]]
    else chunks ++ [[b]]
  | none => [[b]]

/-- The bits from `low` up to, and without, `high`, if the range lies in the signal. -/
def slice? (s : Signal) (low high : Nat) : Option Signal :=
  if low ≤ high ∧ high ≤ s.length then some ((s.take high).drop low) else none

/-- Chunks lose no bit and change no order. -/
theorem flatten_chunks (s : Signal) : s.chunks.flatten = s := by
  induction s with
  | nil => rfl
  | cons b rest ih =>
    simp only [chunks]
    unfold consChunk
    split
    · split <;> simp_all
    · simp [ih]

end Signal

end ClockNet

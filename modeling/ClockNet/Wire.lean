import ClockNet.Attribute
import ClockNet.Direction
import ClockNet.Word

/-! Wires: named vectors of bits, which may be ports. Source text numbers the bits of a
wire from an offset on, upwards or downwards; indices are words of 64 bits. -/

namespace ClockNet

structure Wire where
  name : String
  width : Nat
  /-- The index in source text at which the numbering starts. -/
  offset : Int := 0
  /-- Source text numbers the bits from the most significant one upwards. -/
  upto : Bool := false
  signed : Bool := false
  isInput : Bool := false
  isOutput : Bool := false
  /-- The place in the port list, from 1 on; 0 for a wire that is no port. -/
  position : Nat := 0
  attributes : Attributes := .empty
deriving DecidableEq

namespace Wire

instance : Inhabited Wire := ⟨{ name := "", width := 0 }⟩

def isPort (w : Wire) : Bool := w.isInput || w.isOutput

def direction (w : Wire) : Option Direction := Direction.ofFlags w.isInput w.isOutput

/-- The index in source text of the bit at a place from the least significant one. -/
def indexAt (w : Wire) (place : Nat) : Int :=
  if w.upto then word (w.offset + w.width - 1 - place) else word (w.offset + place)

/-- The place of the bit with an index in source text, if the wire has one. -/
def placeOf (w : Wire) (index : Int) : Option Nat :=
  let place := if w.upto then word (w.offset + w.width - 1 - index) else word (index - w.offset)
  if 0 ≤ place ∧ place < w.width then some place.toNat else none

/-- Goes through the places of a wire, from the least significant one on. -/
def foldPlaces (w : Wire) (f : σ → Nat → σ) (s : σ) : σ := w.width.fold (fun i _ s => f s i) s

/-- There is a place of the wire with a property. -/
def anyPlace (w : Wire) (p : Nat → Bool) : Bool := w.width.any fun i _ => p i

theorem foldPlaces_eq (w : Wire) (f : σ → Nat → σ) (s : σ) :
    w.foldPlaces f s = (List.range w.width).foldl f s := by
  unfold foldPlaces
  induction w.width with
  | zero => rfl
  | succ n ih => rw [Nat.fold_succ, ih, List.range_succ, List.foldl_append]; rfl

theorem anyPlace_eq (w : Wire) (p : Nat → Bool) :
    w.anyPlace p = (List.range w.width).any p := by
  unfold anyPlace
  induction w.width with
  | zero => rfl
  | succ n ih => rw [Nat.any_succ, ih, List.range_succ, List.any_append]; simp

/-- Ports with a place come first, by place; equal places, and ports without one, go by
name. -/
def comesBefore (a b : Wire) : Bool :=
  if a.position = 0 then b.position = 0 && a.name ≤ b.name
  else b.position = 0 || a.position < b.position ||
    (a.position = b.position && a.name ≤ b.name)

end Wire

end ClockNet

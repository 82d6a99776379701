import ClockNet.Json.Number
import ClockNet.Table.Ordered

/-! JSON values. The fields of an object keep the order in which they were first set.
Looking into a value of another kind finds nothing rather than failing. -/

namespace ClockNet

inductive Json where
  | null
  | bool (b : Bool)
  | number (n : Json.Number)
  | string (s : String)
  | array (items : List Json)
  | object (fields : List (String × Json))

namespace Json

instance : Inhabited Json := ⟨null⟩

def ofNat (n : Nat) : Json := number (.ofNat n)

def ofInt (i : Int) : Json := number (.ofInt i)

def isNull : Json → Bool
  | null => true
  | _ => false

def isArray : Json → Bool
  | array _ => true
  | _ => false

def isObject : Json → Bool
  | object _ => true
  | _ => false

def toNat? : Json → Option Nat
  | number n => n.toNat?
  | _ => none

def toInt? : Json → Option Int
  | number n => n.toInt?
  | _ => none

def items : Json → List Json
  | array items => items
  | _ => []

def fields : Json → List (String × Json)
  | object fields => fields
  | _ => []

/-- A field of an object, null where there is none. -/
def field (j : Json) (name : String) : Json :=
  ((j.fields.find? (·.1 == name)).map (·.2)).getD null

def size : Json → Nat
  | array items => items.length
  | object fields => fields.length
  | _ => 0

/-- A number that is there and not 0. -/
def isSet (j : Json) : Bool := j.toNat?.any (· ≠ 0)

end Json

end ClockNet

import ClockNet.Design
import ClockNet.Json.Parser
import ClockNet.NetlistJson.Values

/-! Reading a design from a JSON netlist. Bits of wires and of cell ports are net numbers
or constants there. The first wire bit that mentions a net is its home: a later wire bit of
the same net is connected to it, and a cell port is given the home itself. -/

namespace ClockNet.NetlistJson

inductive ImportError where
  | notText
  | notJson
  | netlist (fault : Fault)
deriving Inhabited

namespace ImportError

/-- What a fault of the text itself is, is left open. -/
def message : ImportError → String
  | notText => "I/O error: stream did not contain valid UTF-8"
  | notJson => "JSON parse error: malformed text"
  | netlist fault => "invalid netlist: " ++ fault.message

end ImportError

/-- A module being read, with the home of every net seen so far. -/
structure Draft where
  module : Module
  homes : List (Nat × Bit) := []

namespace Draft

def home? (d : Draft) (net : Nat) : Option Bit := (d.homes.find? (·.1 == net)).map (·.2)

/-- Makes a bit the home of a net that has none. -/
def settle (d : Draft) (net : Nat) (bit : Bit) : Draft :=
  { d with homes := (net, bit) :: d.homes }

def modify (d : Draft) (f : Module → Module) : Draft := { d with module := f d.module }

end Draft

def constBit (j : Json) : Except Fault Bit :=
  match j with
  | .string "0" => .ok (.const .zero)
  | .string "1" => .ok (.const .one)
  | .string "x" | .string "z" => .ok (.const .unknown)
  | j => .error (.invalidBit j)

/-! ### Wires -/

/-- Gives a bit of a wire its net or constant. -/
def bindBit (d : Draft) (bit : Bit) (j : Json) : Except Fault Draft :=
  match j.toNat? with
  | some net =>
    match d.home? net with
    | some home => .ok (d.modify (·.connect [bit] [home]))
    | none => .ok (d.settle net bit)
  | none => (fun c => d.modify (·.connect [bit] [c])) <$> constBit j

/-- Gives the bits of a wire from an offset on their nets and constants. -/
def bindBits (d : Draft) (id : WireId) (offset : Nat) : List Json → Except Fault Draft
  | [] => .ok d
  | j :: rest => do
    let d ← bindBit d (.wire id offset) j
    bindBits d id (offset + 1) rest

/-- Adds a wire with the given bits; its name must be new. -/
def bindWire (d : Draft) (name : String) (bits : Json) : Except Fault (WireId × Draft) := do
  match d.module.addWire? { name, width := bits.size } with
  | none => .error (.duplicateNet name d.module.name)
  | some m =>
    let id := d.module.wires.length
    let d ← bindBits { d with module := m } id 0 bits.items
    .ok (id, d)

/-- The numbering and the sign of a wire. Flags are only ever set. -/
def importShape (w : Wire) (j : Json) : Except Fault Wire := do
  let offset ←
    if (j.field "offset").isNull then .ok w.offset
    else match (j.field "offset").toInt? with
      | some offset => .ok offset
      | none => .error (.invalidOffset (j.field "offset") w.name)
  .ok { w with
    offset
    upto := w.upto || (j.field "upto").isSet
    signed := w.signed || (j.field "signed").isSet }

def updateWire (d : Draft) (id : WireId) (step : Wire → Except Fault Wire) :
    Except Fault Draft := do
  let w ← step (d.module.wire id)
  .ok (d.modify (·.modifyWire id fun _ => w))

def importNet (d : Draft) (name : String) (j : Json) : Except Fault Draft := do
  let (id, d) ← bindWire d name (j.field "bits")
  updateWire d id fun w => do
    let attributes ← importAttributes (j.field "attributes")
    importShape { w with attributes } j

/-- Makes the wire of a port's name a port; without a net of that name the port brings its
own bits. -/
def importPort (d : Draft) (position : Nat) (direction : Direction) (name : String)
    (j : Json) : Except Fault Draft := do
  let (id, d) ← match d.module.findWire name with
    | some id => .ok (id, d)
    | none => bindWire d name (j.field "bits")
  updateWire d id fun w => do
    let w ← importShape w j
    .ok { w with position, isInput := direction.isInput, isOutput := direction.isOutput }

/-- Makes the ports ports, numbered from `position` on. -/
def importPorts (d : Draft) (position : Nat) :
    List (Direction × String × Json) → Except Fault Draft
  | [] => .ok d
  | (direction, name, j) :: rest => do
    let d ← importPort d position direction name j
    importPorts d (position + 1) rest

/-! ### Cells -/

/-- One bit of a signal. A net that has no home gets a wire of its own. -/
def signalBit (d : Draft) (j : Json) : Except Fault (Bit × Draft) :=
  match j.toNat? with
  | some net =>
    match d.home? net with
    | some home => .ok (home, d)
    | none =>
      let (name, m) := d.module.freshName "$json"
      let bit := Bit.wire m.wires.length 0
      .ok (bit, { d with module := m.addWire { name, width := 1 } }.settle net bit)
  | none => (·, d) <$> constBit j

def signalBits (d : Draft) : List Json → Except Fault (Signal × Draft)
  | [] => .ok ([], d)
  | j :: rest => do
    let (bit, d) ← signalBit d j
    let (bits, d) ← signalBits d rest
    .ok (bit :: bits, d)

def importSignal (d : Draft) (j : Json) : Except Fault (Signal × Draft) :=
  if j.isArray then signalBits d j.items else .error (.expectedBits j)

/-- The connections of a cell, which may add wires. -/
def importConnections (d : Draft) :
    List (String × Json) → Except Fault (List (String × Signal) × Draft)
  | [] => .ok ([], d)
  | (port, j) :: rest => do
    let (s, d) ← importSignal d j
    let (connections, d) ← importConnections d rest
    .ok ((port, s) :: connections, d)

def importCell (d : Draft) (name : String) (j : Json) : Except Fault Draft := do
  match j.field "type" with
  | .string type =>
    if (d.module.findCell name).isSome then .error (.duplicateCell name)
    else do
      let (connections, d) ← importConnections d (j.field "connections").fields
      let parameters ← importAttributes (j.field "parameters")
      let attributes ← importAttributes (j.field "attributes")
      let directions ← (j.field "port_directions").fields.foldlM
        (fun (t : SortedTable Direction) field => t.insert field.1 <$> importDirection field.2)
        .empty
      let ports := connections.foldl (fun (t : OrderedTable Signal) c => t.set c.1 c.2) .empty
      .ok (d.modify (·.addCell { name, type, parameters, attributes, directions, ports }))
  | _ => .error (.missingType name)

/-! ### Modules -/

/-- The parts of a module: the directions of its ports, its nets, its ports, its cells. -/
def importModule (name : String) (j : Json) : Except Fault Module := do
  let attributes ← importAttributes (j.field "attributes")
  let ports ← (j.field "ports").fields.mapM fun field =>
    (·, field.1, field.2) <$> importDirection (field.2.field "direction")
  let d ← (j.field "netnames").fields.foldlM (fun d field => importNet d field.1 field.2)
    { module := { name, attributes } : Draft }
  let d ← importPorts d 1 ports
  let d ← (j.field "cells").fields.foldlM (fun d field => importCell d field.1 field.2) d
  .ok d.module.renumberPorts

/-- A design from a JSON value, which lists its modules by name. -/
def importDesign (j : Json) : Except Fault Design :=
  if (j.field "modules").isObject then
    (j.field "modules").fields.foldlM (fun d field =>
      if (d.find? field.1).isSome then .error (.duplicateModule field.1)
      else d.add <$> importModule field.1 field.2) {}
  else .error .missingModules

/-- Reads a design from the bytes of a file. -/
def ofBytes (bytes : List UInt8) : Except ImportError Design :=
  match Text.decode? bytes with
  | none => .error .notText
  | some text =>
    match Json.parse? text with
    | none => .error .notJson
    | some j => (importDesign j).mapError .netlist

end ClockNet.NetlistJson

import ClockNet.Alias
import ClockNet.Design
import ClockNet.NetlistJson.Values

/-! Writing a design as a JSON netlist. Bits that are aliases of each other share a net
number; a net that a constant stands for is written as that constant. -/

namespace ClockNet.NetlistJson

/-- The nets numbered so far, in order of their numbers. -/
abbrev Numbering := List Bit

/-- Net numbers begin at 2, so that no number looks like a constant. -/
def firstNet : Nat := 2

/-- A bit of a net: its constant, or its number, the next one for a new net. -/
def exportBit (aliases : AliasMap) (nets : Numbering) (b : Bit) : Json × Numbering :=
  match aliases.root b with
  | .const t => (.string t.toChar.toString, nets)
  | root =>
    match nets.idxOf? root with
    | some i => (.ofNat (i + firstNet), nets)
    | none => (.ofNat (nets.length + firstNet), nets ++ [root])

def exportBits (aliases : AliasMap) (nets : Numbering) : Signal → List Json × Numbering
  | [] => ([], nets)
  | b :: rest =>
    let (j, nets) := exportBit aliases nets b
    let (js, nets) := exportBits aliases nets rest
    (j :: js, nets)

def exportSignal (aliases : AliasMap) (nets : Numbering) (s : Signal) : Json × Numbering :=
  let (bits, nets) := exportBits aliases nets s
  (.array bits, nets)

/-- The numbering and the sign of a wire, where they are not the usual ones. -/
def exportShape (w : Wire) : List (String × Json) :=
  (if w.offset = 0 then [] else [("offset", .ofInt w.offset)]) ++
  (if w.upto then [("upto", .ofNat 1)] else []) ++
  (if w.signed then [("signed", .ofNat 1)] else [])

/-- A name that begins with a dollar sign is not meant to be shown. -/
def hideName (name : String) : Json :=
  .ofNat (if name.toList.head? = some '$' then 1 else 0)

/-- Writes each item of a list, with a numbering that grows from one to the next. -/
def exportEach (write : Numbering → α → β × Numbering) (nets : Numbering) :
    List α → List β × Numbering
  | [] => ([], nets)
  | a :: rest =>
    let (b, nets) := write nets a
    let (bs, nets) := exportEach write nets rest
    (b :: bs, nets)

section
variable (signatures : Signatures) (m : Module) (aliases : AliasMap)

def exportPort (nets : Numbering) (port : WireId × Direction) :
    (String × Json) × Numbering :=
  let w := m.wire port.1
  let (bits, nets) := exportSignal aliases nets (m.wireSignal port.1)
  ((w.name, .object ([("direction", exportDirection port.2), ("bits", bits)] ++ exportShape w)),
    nets)

/-- The listed ports that are inputs or outputs. -/
def exportedPorts : List (WireId × Direction) :=
  m.ports.filterMap fun id => (m.wire id).direction.map (id, ·)

def exportCell (nets : Numbering) (c : Cell) : (String × Json) × Numbering :=
  let directions := c.ports.entries.filterMap fun e =>
    (signatures.direction c e.1).map fun d => (e.1, exportDirection d)
  let (connections, nets) := exportEach (fun nets (e : String × Signal) =>
    let (s, nets) := exportSignal aliases nets e.2
    ((e.1, s), nets)) nets c.ports.entries
  ((c.name, .object [
    ("hide_name", hideName c.name),
    ("type", .string c.type),
    ("parameters", exportAttributes c.parameters),
    ("attributes", exportAttributes c.attributes),
    ("port_directions", .object directions),
    ("connections", .object connections)]), nets)

def exportNet (nets : Numbering) (id : WireId) : (String × Json) × Numbering :=
  let w := m.wire id
  let (bits, nets) := exportSignal aliases nets (m.wireSignal id)
  ((w.name, .object ([("hide_name", hideName w.name), ("bits", bits)] ++ exportShape w ++
    [("attributes", exportAttributes w.attributes)])), nets)

end

/-- A module: attributes, ports, cells and nets, with nets numbered in this order. -/
def exportModule (signatures : Signatures) (m : Module) : Json :=
  let aliases := AliasMap.ofConnections m.connections
  let (ports, nets) := exportEach (exportPort m aliases) [] (exportedPorts m)
  let (cells, nets) := exportEach (exportCell signatures aliases) nets m.cells
  let (netnames, _) := exportEach (exportNet m aliases) nets m.wireIds
  .object [
    ("attributes", exportAttributes m.attributes),
    ("ports", .object ports),
    ("cells", .object cells),
    ("netnames", .object netnames)]

/-- Every wire is narrow enough to be written bit by bit. -/
def isExportable (d : Design) : Bool :=
  d.modules.all fun m => m.wires.all fun w => w.width ≤ Signal.maxLength

/-- The program that a file names as its creator. -/
def creator : String := "clkbufmap 0.1.0"

def exportDesign (d : Design) : Json :=
  let signatures := Signatures.ofDesign d
  .object [
    ("creator", .string creator),
    ("modules", .object (d.modules.map fun m => (m.name, exportModule signatures m)))]

end ClockNet.NetlistJson

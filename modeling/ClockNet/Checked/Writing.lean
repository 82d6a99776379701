import ClockNet.Checked.Kernel
import ClockNet.NetlistJson.Printer
import ClockNet.Rtlil.Printer

/-! # Writing designs, with assertions

The two writers again, on operations that check what they ask for. Netlist text splits each signal
into chunks and looks up the first bit of a chunk and the wire of that bit. A JSON netlist looks up
wires by the ids of ports and nets, and joins the signals of connections bit by bit. A well-formed
design with its ports in order has all of that (`Rtlil.Checked.print_ok`,
`NetlistJson.Checked.print_ok`). -/

namespace ClockNet

open Checked (bind_ok mapM_ok)

variable {ε : Type}

/-! ## Netlist text -/

namespace Rtlil.Checked

def chunkGroups (m : Module) (chunk : Signal) : ClockNet.Checked ε (List (List Token)) := do
  match ← chunk.bitAt 0 with
  | .wire id offset => do
    let w ← m.lookupWire id
    .ok ([.name w.name] :: sliceTokens w offset chunk.length)
  | .const _ => .ok [[.const (chunk.filterMap Bit.const?)]]

def signalGroups (m : Module) (s : Signal) : ClockNet.Checked ε (List (List Token)) := do
  match ← s.split with
  | [chunk] => chunkGroups m chunk
  | chunks => do
    let groups ← chunks.reverse.mapM (chunkGroups m)
    .ok ([[.mark '\x7b']] ++ groups.flatten ++ [[.mark '\x7d']])

def cellLines (m : Module) (c : Cell) : ClockNet.Checked ε (List Line) := do
  let ports ← c.ports.entries.mapM fun e => do
    let groups ← signalGroups m e.2
    .ok (⟨4, [[.word "connect"], [.name e.1]] ++ groups⟩ : Line)
  .ok (attributeLines 2 c.attributes ++
    [.ofTokens 2 [.word "cell", .name c.type, .name c.name]] ++
    (c.parameters.entries.map fun e =>
      .ofTokens 4 [.word "parameter", .name e.1, valueToken e.2]) ++
    ports ++ [.ofTokens 2 [.word "end"]])

def connectionLine (m : Module) (c : Signal × Signal) : ClockNet.Checked ε Line := do
  let driven ← signalGroups m c.1
  let driver ← signalGroups m c.2
  .ok ⟨2, [[.word "connect"]] ++ driven ++ driver⟩

def moduleLines (m : Module) : ClockNet.Checked ε (List Line) := do
  let cells ← m.cells.mapM (cellLines m)
  let connections ← m.connections.mapM (connectionLine m)
  .ok (attributeLines 0 m.attributes ++ [.ofTokens 0 [.word "module", .name m.name]] ++
    m.wires.flatMap wireLines ++ cells.flatten ++ connections ++ [.ofTokens 0 [.word "end"]])

def print (d : Design) : ClockNet.Checked ε String := do
  let modules ← d.modules.mapM moduleLines
  .ok (String.join ((([⟨0, []⟩] : List Line).intercalate modules).map Line.spell))

section
variable {m : Module}

theorem signalGroups_ok {s : Signal} (h : ∀ b ∈ s, m.HasBit b) :
    signalGroups (ε := ε) m s = .ok (Rtlil.signalGroups m s) := by
  have hchunk : ∀ chunk ∈ s.chunks,
      chunkGroups (ε := ε) m chunk = .ok (Rtlil.chunkGroups m chunk) := by
    intro chunk hmem
    obtain ⟨b, bits, rfl⟩ :=
      List.exists_cons_of_ne_nil (Signal.isChunk_of_mem_chunks hmem).ne_nil
    have hb := h b (Signal.mem_of_mem_chunks hmem List.mem_cons_self)
    cases b with
    | const t => rfl
    | wire id i =>
      show (do let w ← m.lookupWire id; _) = _
      rw [Module.lookupWire_ok (Module.lt_of_place hb)]
      rfl
  rw [signalGroups, Rtlil.signalGroups, Signal.split_eq, bind_ok]
  generalize s.chunks = chunks at hchunk
  match chunks with
  | [] => rfl
  | [chunk] => exact hchunk chunk List.mem_cons_self
  | first :: second :: rest =>
    dsimp only
    rw [mapM_ok fun chunk hmem => hchunk chunk (List.mem_reverse.mp hmem), bind_ok,
      List.flatMap_def]

theorem moduleLines_ok (hm : m.WellFormed) :
    moduleLines (ε := ε) m = .ok (Rtlil.moduleLines m) := by
  have hcell : ∀ c ∈ m.cells, cellLines (ε := ε) m c = .ok (Rtlil.cellLines m c) := by
    intro c hc
    rw [cellLines, mapM_ok fun e he => by rw [signalGroups_ok (hm.cell_bits c hc e he)]; rfl]
    rfl
  have hconnection : ∀ c ∈ m.connections,
      connectionLine (ε := ε) m c = .ok (Rtlil.connectionLine m c) := by
    intro c hc
    have hbits := hm.connection_bits c hc
    rw [connectionLine, signalGroups_ok fun b hb => hbits b (List.mem_append_left _ hb), bind_ok,
      signalGroups_ok fun b hb => hbits b (List.mem_append_right _ hb)]
    rfl
  rw [moduleLines, mapM_ok hcell, bind_ok, mapM_ok hconnection, bind_ok, ← List.flatMap_def]
  rfl

end

/-- Every signal of a well-formed design can be spelled. -/
theorem print_ok {d : Design} (hd : d.WellFormed) : print (ε := ε) d = .ok (Rtlil.print d) := by
  rw [print, mapM_ok fun m hm => moduleLines_ok (hd.modules m hm)]
  rfl

end Rtlil.Checked

/-! ## JSON netlists -/

namespace NetlistJson.Checked

def exportEach {α β : Type} (write : Numbering → α → ClockNet.Checked ε (β × Numbering))
    (nets : Numbering) : List α → ClockNet.Checked ε (List β × Numbering)
  | [] => .ok ([], nets)
  | a :: rest => do
    let (b, nets) ← write nets a
    let (bs, nets) ← exportEach write nets rest
    .ok (b :: bs, nets)

section
variable (signatures : Signatures) (m : Module) (aliases : AliasMap)

def exportPort (nets : Numbering) (port : WireId × Direction) :
    ClockNet.Checked ε ((String × Json) × Numbering) := do
  let w ← m.lookupWire port.1
  let s ← m.lookupSignal port.1
  let (bits, nets) := exportSignal aliases nets s
  .ok ((w.name, .object ([("direction", exportDirection port.2), ("bits", bits)] ++
    exportShape w)), nets)

def exportedPorts : ClockNet.Checked ε (List (WireId × Direction)) := do
  let ports ← m.ports.mapM fun id => do
    let w ← m.lookupWire id
    .ok (w.direction.map (id, ·))
  .ok (ports.filterMap id)

def exportNet (nets : Numbering) (id : WireId) :
    ClockNet.Checked ε ((String × Json) × Numbering) := do
  let w ← m.lookupWire id
  let s ← m.lookupSignal id
  let (bits, nets) := exportSignal aliases nets s
  .ok ((w.name, .object ([("hide_name", hideName w.name), ("bits", bits)] ++ exportShape w ++
    [("attributes", exportAttributes w.attributes)])), nets)

end

def exportModule (signatures : Signatures) (m : Module) : ClockNet.Checked ε Json := do
  let aliases ← AliasMap.build m
  let listed ← exportedPorts m
  let (ports, nets) ← exportEach (exportPort m aliases) [] listed
  let (cells, nets) := NetlistJson.exportEach (exportCell signatures aliases) nets m.cells
  let (netnames, _) ← exportEach (exportNet m aliases) nets m.wireIds
  .ok (.object [
    ("attributes", exportAttributes m.attributes),
    ("ports", .object ports),
    ("cells", .object cells),
    ("netnames", .object netnames)])

def exportDesign (d : Design) : ClockNet.Checked ε Json := do
  let signatures ← Signatures.build d
  let modules ← d.modules.mapM fun m => do
    let j ← exportModule signatures m
    .ok (m.name, j)
  .ok (.object [("creator", .string creator), ("modules", .object modules)])

def print (d : Design) : ClockNet.Checked ε String := do
  let j ← exportDesign d
  .ok j.pretty

theorem exportEach_ok {α β : Type} {write : Numbering → α → ClockNet.Checked ε (β × Numbering)}
    {plain : Numbering → α → β × Numbering} {items : List α}
    (h : ∀ nets, ∀ a ∈ items, write nets a = .ok (plain nets a)) (nets : Numbering) :
    exportEach write nets items = .ok (NetlistJson.exportEach plain nets items) := by
  induction items generalizing nets with
  | nil => rfl
  | cons a rest ih =>
    rw [exportEach, h nets a List.mem_cons_self, bind_ok]
    dsimp only
    rw [ih fun nets b hb => h nets b (List.mem_cons_of_mem _ hb)]
    rfl

section
variable {m : Module} {id : WireId}

theorem exportPort_ok (hid : id < m.wires.length) (aliases : AliasMap) (nets : Numbering)
    (direction : Direction) : exportPort (ε := ε) m aliases nets (id, direction) =
      .ok (NetlistJson.exportPort m aliases nets (id, direction)) := by
  rw [exportPort, Module.lookupWire_ok hid, bind_ok, Module.lookupSignal_ok hid]
  rfl

theorem exportNet_ok (hid : id < m.wires.length) (aliases : AliasMap) (nets : Numbering) :
    exportNet (ε := ε) m aliases nets id = .ok (NetlistJson.exportNet m aliases nets id) := by
  rw [exportNet, Module.lookupWire_ok hid, bind_ok, Module.lookupSignal_ok hid]
  rfl

theorem exportedPorts_ok (hp : m.PortsNumbered) :
    exportedPorts (ε := ε) m = .ok (NetlistJson.exportedPorts m) := by
  rw [exportedPorts, mapM_ok fun id hid => by
    rw [Module.lookupWire_ok (Module.lt_of_isPort (hp.mem.mp hid))]; rfl, bind_ok,
    List.filterMap_map]
  rfl

theorem exportModule_ok (signatures : Signatures) (hm : m.WellFormed) (hp : m.PortsNumbered) :
    exportModule (ε := ε) signatures m = .ok (NetlistJson.exportModule signatures m) := by
  have hports : ∀ port ∈ NetlistJson.exportedPorts m, port.1 < m.wires.length := by
    intro port hport
    obtain ⟨id, hid, hport⟩ := List.mem_filterMap.mp hport
    obtain ⟨direction, -, rfl⟩ := Option.map_eq_some_iff.mp hport
    exact Module.lt_of_isPort (hp.mem.mp hid)
  have hwires : ∀ id ∈ m.wireIds, id < m.wires.length := fun id hid => List.mem_range.mp hid
  unfold exportModule
  rw [AliasMap.build_ok hm.connection_widths, bind_ok, exportedPorts_ok hp, bind_ok,
    exportEach_ok fun nets port hport => exportPort_ok (hports port hport) _ nets port.2, bind_ok]
  dsimp only
  rw [exportEach_ok fun nets id hid => exportNet_ok (hwires id hid) _ nets]
  rfl

end

/-- Every wire that a JSON netlist asks for is there, and connections fit. -/
theorem print_ok {d : Design} (hd : d.WellFormed) (hp : d.PortsNumbered) :
    print (ε := ε) d = .ok (NetlistJson.print d) := by
  rw [print, exportDesign, Signatures.build_ok hp, bind_ok, mapM_ok fun m hm => by
    rw [exportModule_ok _ (hd.modules m hm) (hp m hm)]; rfl]
  rfl

end NetlistJson.Checked

end ClockNet

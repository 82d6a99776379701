import ClockNet.Proofs.NetsRead
import ClockNet.Proofs.Ports

/-! # A written module read back

Behind the nets, ports are found by the names of their wires, and the signals of cells are given
the homes of their nets. What is read is the module put together anew from its nets
(`importModule_exportModule`), and so for all modules of a design
(`importDesign_exportDesign`). -/

namespace ClockNet.NetlistJson

/-! ## What is read -/

/-- The directions that are written of the connected ports of a cell, as they are read. -/
def readDirections (signatures : Signatures) (c : Cell) : SortedTable Direction :=
  (c.ports.entries.filterMap fun e => (signatures.direction c e.1).map fun d => (e.1, d)).foldl
    (fun t e => t.insert e.1 e.2) .empty

/-- A cell as it is read: its signals are homes of nets. -/
def rebuiltCell (signatures : Signatures) (m : Module) (c : Cell) : Cell :=
  { c with
    parameters := rereadAll c.parameters
    attributes := rereadAll c.attributes
    ports := c.ports.mapValues fun _ s => s.map m.homeOf
    directions := readDirections signatures c }

/-- A module as it is read: every bit of a wire is connected to its home. -/
def rebuilt (signatures : Signatures) (m : Module) : Module :=
  { name := m.name
    attributes := rereadAll m.attributes
    wires := m.wires.map rereadWire
    cells := m.cells.map (rebuiltCell signatures m)
    connections := tieConnections (m.homes m.places)
    ports := m.ports }

section
variable {m : Module} {nets : Numbering} {d : Draft}

/-! ## Ports -/

theorem isInput_of_direction {w : Wire} {direction : Direction}
    (h : w.direction = some direction) :
    direction.isInput = w.isInput ∧ direction.isOutput = w.isOutput := by
  unfold Wire.direction at h
  revert h
  cases w.isInput <;> cases w.isOutput <;> intro h <;> cases h <;> exact ⟨rfl, rfl⟩

theorem isPort_iff_direction {w : Wire} :
    w.isPort = true ↔ ∃ direction, w.direction = some direction := by
  unfold Wire.isPort Wire.direction
  cases w.isInput <;> cases w.isOutput <;> simp [Direction.ofFlags]

/-- The module when its nets and some of its ports have been read. -/
def portsRead (m : Module) (done : List WireId) : Module :=
  { netsRead m m.wireIds with
    wires := m.wireIds.map fun id =>
      if id ∈ done then rereadWire (m.wire id) else plainWire (m.wire id) }

theorem wire_portsRead {done : List WireId} {id : WireId} (hid : id < m.wires.length) :
    (portsRead m done).wire id =
      if id ∈ done then rereadWire (m.wire id) else plainWire (m.wire id) := by
  simp [portsRead, Module.wire, Module.wireIds, hid]

theorem names_portsRead (m : Module) (done : List WireId) :
    (portsRead m done).wires.map (·.name) = m.wires.map (·.name) := by
  have hnames : m.wires.map (·.name) = m.wireIds.map fun id => (m.wire id).name := by
    conv_lhs => rw [← map_wire_wireIds m, List.map_map]
    rfl
  rw [hnames, portsRead, List.map_map]
  refine List.map_congr_left fun id _ => ?_
  show (if id ∈ done then _ else _ : Wire).name = _
  split <;> rfl

theorem findWire_portsRead (hm : m.WellFormed) (done : List WireId) {id : WireId}
    (hid : id < m.wires.length) : (portsRead m done).findWire (m.wire id).name = some id := by
  have hnames : ((portsRead m done).wires.map (·.name)).Nodup :=
    names_portsRead m done ▸ hm.wires_nodup
  have hname : ((portsRead m done).wire id).name = (m.wire id).name := by
    rw [wire_portsRead hid]
    split <;> rfl
  rw [← hname]
  exact Module.findWire_name hnames (by simpa [portsRead, Module.wireIds])

theorem modifyWire_portsRead (m : Module) (done : List WireId) (id : WireId) :
    (portsRead m done).modifyWire id (fun _ => rereadWire (m.wire id)) =
      portsRead m (done ++ [id]) := by
  have hwires : ((portsRead m done).wires.modify id fun _ => rereadWire (m.wire id)) =
      (portsRead m (done ++ [id])).wires := by
    refine List.ext_getElem (by simp [portsRead]) ?_
    intro i hi _
    rw [List.getElem_modify]
    by_cases he : id = i
    · simp [portsRead, Module.wireIds, he]
    · have he' : ¬ i = id := fun h => he h.symm
      simp [portsRead, Module.wireIds, he, he']
  exact congrArg (fun wires => { portsRead m done with wires }) hwires

variable (nets) in
/-- The shape of a port is the one that its wire has from its net. -/
theorem importShape_portEntry (ho : OffsetsFit m) {id : WireId} (hid : id < m.wires.length)
    (direction : Direction) :
    importShape (plainWire (m.wire id)) (portEntry m nets (id, direction)).2 =
      .ok (plainWire (m.wire id)) := by
  let fields := [("direction", exportDirection direction),
    ("bits", signalJson m.aliases nets (m.wireSignal id))]
  have hfits := ho _ (Module.wire_mem hid)
  have hbefore : ∀ key ∈ shapeKeys, key ∉ fields.map Prod.fst := by simp [shapeKeys, fields]
  have hafter : ∀ key ∈ shapeKeys, key ∉ ([] : List (String × Json)).map Prod.fst := by simp
  have hoffset : (plainWire (m.wire id)).offset = (m.wire id).offset := rfl
  show importShape _ (.object (fields ++ exportShape (m.wire id))) = _
  rw [← List.append_nil (fields ++ exportShape (m.wire id)), importShape_exportShape hbefore
    hafter (Int.le_of_lt hfits.1) hfits.2 (.inr hoffset)]
  simp [plainWire, rereadWire]

variable (nets) in
theorem importPort_portEntry (hm : m.WellFormed) (ho : OffsetsFit m) (hp : m.PortsNumbered)
    {done rest : List WireId} {id : WireId} (hports : done ++ id :: rest = m.ports)
    {direction : Direction} (hdir : (m.wire id).direction = some direction)
    (homes : List (Nat × Bit)) :
    importPort ⟨portsRead m done, homes⟩ (done.length + 1) direction
        (portEntry m nets (id, direction)).1 (portEntry m nets (id, direction)).2 =
      .ok ⟨portsRead m (done ++ [id]), homes⟩ := by
  obtain ⟨hnodup, hids, -⟩ := Module.portsNumbered_iff.mp hp
  have hmem : id ∈ m.ports := by rw [← hports]; simp
  have hlt : id < m.wires.length := hids id hmem
  have hnew : id ∉ done := by
    rw [← hports] at hnodup
    exact fun hd => (List.nodup_append.mp hnodup).2.2 id hd id (by simp) rfl
  have hposition : (m.wire id).position = done.length + 1 := by
    rw [hp.position hmem, ← hports, List.idxOf_append, if_neg hnew, List.idxOf_cons_self,
      Nat.zero_add]
  let step : Wire → Except Fault Wire := fun w => do
    let w ← importShape w (portEntry m nets (id, direction)).2
    .ok { w with
      position := done.length + 1
      isInput := direction.isInput
      isOutput := direction.isOutput }
  have hstep : step ((portsRead m done).wire id) = .ok (rereadWire (m.wire id)) := by
    obtain ⟨hin, hout⟩ := isInput_of_direction hdir
    show (importShape ((portsRead m done).wire id) (portEntry m nets (id, direction)).2 >>= _) = _
    rw [wire_portsRead hlt, if_neg hnew, importShape_portEntry nets ho hlt, hin, hout, ← hposition]
    rfl
  have hfound : (⟨portsRead m done, homes⟩ : Draft).module.findWire
      (portEntry m nets (id, direction)).1 = some id := findWire_portsRead hm done hlt
  unfold importPort
  rw [hfound]
  refine (@updateWire_ok ⟨portsRead m done, homes⟩ id step _ hstep).trans ?_
  rw [Draft.modify, modifyWire_portsRead]

variable (nets) in
theorem importPorts_portEntries (hm : m.WellFormed) (ho : OffsetsFit m) (hp : m.PortsNumbered)
    {done : List WireId} {rest : List (WireId × Direction)}
    (hports : done ++ rest.map Prod.fst = m.ports)
    (hdir : ∀ e ∈ rest, (m.wire e.1).direction = some e.2) (homes : List (Nat × Bit)) :
    importPorts ⟨portsRead m done, homes⟩ (done.length + 1)
        (rest.map fun e => (e.2, portEntry m nets e)) = .ok ⟨portsRead m m.ports, homes⟩ := by
  induction rest generalizing done with
  | nil =>
    rw [List.map_nil, List.append_nil] at hports
    rw [← hports]
    rfl
  | cons e rest ih =>
    have hfirst := importPort_portEntry nets hm ho hp hports
      (hdir e List.mem_cons_self) homes
    have hrest : importPorts ⟨portsRead m (done ++ [e.1]), homes⟩ ((done ++ [e.1]).length + 1)
        (rest.map fun e => (e.2, portEntry m nets e)) = .ok ⟨portsRead m m.ports, homes⟩ :=
      ih (by simpa using hports) fun e he => hdir e (List.mem_cons_of_mem _ he)
    rw [List.length_append, List.length_singleton] at hrest
    rw [List.map_cons, importPorts]
    show (importPort _ _ e.2 (portEntry m nets (e.1, e.2)).1 (portEntry m nets (e.1, e.2)).2 >>= _)
      = _
    rw [hfirst]
    exact hrest

/-- Every listed port has a direction and is written. -/
theorem exportedPorts_eq (hp : m.PortsNumbered) : (exportedPorts m).map Prod.fst = m.ports ∧
    ∀ e ∈ exportedPorts m, (m.wire e.1).direction = some e.2 := by
  refine ⟨?_, ?_⟩
  · have hsame : ∀ id ∈ m.ports,
        ((m.wire id).direction.map fun direction => (id, direction)).map Prod.fst = some id := by
      intro id hid
      obtain ⟨direction, hd⟩ := isPort_iff_direction.mp (hp.mem.mp hid)
      rw [hd]
      rfl
    rw [exportedPorts, List.map_filterMap, List.filterMap_congr hsame, List.filterMap_some]
  · intro e he
    obtain ⟨id, -, hid⟩ := List.mem_filterMap.mp he
    obtain ⟨direction, hd, rfl⟩ := Option.map_eq_some_iff.mp hid
    exact hd

theorem mapM_importDirection (m : Module) (nets : Numbering) (ports : List (WireId × Direction)) :
    ((ports.map (portEntry m nets)).mapM fun field =>
      (·, field.1, field.2) <$> importDirection (field.2.field "direction")) =
      .ok (ports.map fun e => (e.2, portEntry m nets e)) := by
  induction ports with
  | nil => rfl
  | cons e rest ih =>
    have hfield : (portEntry m nets e).2.field "direction" = exportDirection e.2 := rfl
    rw [List.map_cons, List.mapM_cons, ih, hfield, importDirection_exportDirection]
    rfl

/-! ## Cells -/

/-- The module when its nets, its ports and some of its cells have been read. -/
def cellsRead (signatures : Signatures) (m : Module) (done : List Cell) : Module :=
  { rebuilt signatures m with cells := done.map (rebuiltCell signatures m), ports := [] }

theorem portsRead_ports (signatures : Signatures) (hp : m.PortsNumbered) :
    portsRead m m.ports = cellsRead signatures m [] := by
  have hwire : ∀ id ∈ m.wireIds, (if id ∈ m.ports then rereadWire (m.wire id)
      else plainWire (m.wire id)) = rereadWire (m.wire id) := by
    intro id hid
    split
    · rfl
    · rename_i hout
      -- a wire outside the list is no port and has no position to lose
      obtain ⟨hport, hposition⟩ := (Module.portsNumbered_iff.mp hp).2.2 id (List.mem_range.mp hid)
      have hflag : (m.wire id).isPort = false := by
        rw [← Bool.not_eq_true, ← hport]
        exact hout
      rw [hflag] at hposition
      simp only [Wire.isPort, Bool.or_eq_false_iff] at hflag
      simp only [plainWire, rereadWire, hflag.1, hflag.2, hposition, Bool.false_eq_true, if_false]
  have hwires : (portsRead m m.ports).wires = m.wires.map rereadWire := by
    rw [← map_wire_wireIds m, List.map_map]
    exact List.map_congr_left hwire
  exact congrArg (fun wires => { netsRead m m.wireIds with wires }) hwires

theorem signalBit_bitJson (hc : Covers m nets) (h : Follows m nets m.places d) {b : Bit}
    (hb : m.HasBit b) : signalBit d (bitJson m.aliases nets b) = .ok (m.homeOf b, d) := by
  cases hr : m.aliases.root b with
  | const t =>
    have hjson : bitJson m.aliases nets b = .string t.toChar.toString := by rw [bitJson, hr]
    rw [hjson, Module.homeOf_of_root_const hr]
    show (·, d) <$> constBit (.string t.toChar.toString) = _
    rw [constBit_toChar]
    rfl
  | wire id i =>
    have hrc : (m.aliases.root b).isConst = false := by rw [hr]; rfl
    have hplace : b ∈ m.places := by
      refine Module.mem_places.mpr ⟨hb, ?_⟩
      cases b with
      | const t =>
        rw [m.settled_aliases.root_const] at hr
        cases hr
      | wire id i => rfl
    have hjson : (bitJson m.aliases nets b).toNat? =
        some (nets.idxOf (m.aliases.root b) + firstNet) := by
      rw [bitJson, hr]
      rfl
    have hhome := h.homes _ (hc b hplace hrc) hrc
    rw [Module.find?_home hb hrc] at hhome
    unfold signalBit
    rw [hjson]
    dsimp only
    rw [hhome]

theorem importSignal_signalJson (hc : Covers m nets) (h : Follows m nets m.places d) {s : Signal}
    (hs : ∀ b ∈ s, m.HasBit b) :
    importSignal d (signalJson m.aliases nets s) = .ok (s.map m.homeOf, d) := by
  show signalBits d (s.map (bitJson m.aliases nets)) = _
  induction s with
  | nil => rfl
  | cons b s ih =>
    have hrest := ih fun b hb => hs b (List.mem_cons_of_mem _ hb)
    rw [List.map_cons, signalBits, signalBit_bitJson hc h (hs b List.mem_cons_self)]
    show (signalBits d (s.map (bitJson m.aliases nets)) >>= _) = _
    rw [hrest]
    rfl

theorem importConnections_connectionEntries (hc : Covers m nets) (h : Follows m nets m.places d)
    {entries : List (String × Signal)} (he : ∀ e ∈ entries, ∀ b ∈ e.2, m.HasBit b) :
    importConnections d (entries.map (connectionEntry m nets)) =
      .ok (entries.map fun e => (e.1, e.2.map m.homeOf), d) := by
  induction entries with
  | nil => rfl
  | cons e rest ih =>
    have hrest := ih fun e hmem => he e (List.mem_cons_of_mem _ hmem)
    have hfirst := importSignal_signalJson hc h (he e List.mem_cons_self)
    rw [List.map_cons, importConnections]
    show (importSignal d (signalJson m.aliases nets e.2) >>= _) = _
    rw [hfirst]
    show (importConnections d (rest.map (connectionEntry m nets)) >>= _) = _
    rw [hrest]
    rfl

theorem foldlM_directions (signatures : Signatures) (c : Cell) :
    (c.ports.entries.filterMap fun e =>
        (signatures.direction c e.1).map fun d => (e.1, exportDirection d)).foldlM
      (fun (t : SortedTable Direction) field => t.insert field.1 <$> importDirection field.2)
      .empty = .ok (readDirections signatures c) := by
  have hmap : (c.ports.entries.filterMap fun e =>
        (signatures.direction c e.1).map fun d => (e.1, exportDirection d)) =
      (c.ports.entries.filterMap fun e =>
        (signatures.direction c e.1).map fun d => (e.1, d)).map
          fun e => (e.1, exportDirection e.2) := by
    rw [List.map_filterMap]
    refine List.filterMap_congr fun e _ => ?_
    cases signatures.direction c e.1 <;> rfl
  rw [hmap, List.foldlM_map]
  refine foldlM_ok ?_ _
  intro t e _
  dsimp only
  rw [importDirection_exportDirection]
  rfl

theorem importCell_cellEntry (hm : m.WellFormed) (hc : Covers m nets) {signatures : Signatures}
    {done rest : List Cell} {c : Cell} (hcells : done ++ c :: rest = m.cells)
    (h : Follows m nets m.places d) (hd : d.module = cellsRead signatures m done) :
    importCell d (cellEntry signatures m nets c).1 (cellEntry signatures m nets c).2 =
      .ok (d.modify (·.addCell (rebuiltCell signatures m c))) := by
  have hmem : c ∈ m.cells := by rw [← hcells]; simp
  have hnew : d.module.findCell c.name = none := by
    rw [Module.findCell_eq_none, hd, cellsRead, List.map_map]
    exact not_mem_before (hcells.symm ▸ hm.cells_nodup)
  have hports : (c.ports.entries.map fun e => (e.1, e.2.map m.homeOf)).foldl
      (fun (t : OrderedTable Signal) e => t.set e.1 e.2) .empty =
      c.ports.mapValues fun _ s => s.map m.homeOf :=
    (c.ports.mapValues fun _ s => s.map m.homeOf).foldl_set_entries
  have hconnections := importConnections_connectionEntries hc h (hm.cell_bits c hmem)
  show (if (d.module.findCell c.name).isSome then _ else
    importConnections d (c.ports.entries.map (connectionEntry m nets)) >>= _) = _
  rw [hnew, if_neg (by simp), hconnections]
  have hdirections : ((cellEntry signatures m nets c).2.field "port_directions").fields =
      c.ports.entries.filterMap fun e =>
        (signatures.direction c e.1).map fun d => (e.1, exportDirection d) := rfl
  show (importAttributes (exportAttributes c.parameters) >>= fun parameters =>
    importAttributes (exportAttributes c.attributes) >>= _) = _
  rw [importAttributes_exportAttributes, ok_bind, importAttributes_exportAttributes, ok_bind,
    hdirections, foldlM_directions, ok_bind, hports]
  rfl

theorem importCells (hm : m.WellFormed) (hc : Covers m nets) (signatures : Signatures)
    (h : Follows m nets m.places d) (hd : d.module = cellsRead signatures m []) :
    ∃ d', (m.cells.map (cellEntry signatures m nets)).foldlM
        (fun d field => importCell d field.1 field.2) d = .ok d' ∧
      Follows m nets m.places d' ∧ d'.module = cellsRead signatures m m.cells := by
  rw [List.foldlM_map]
  refine foldlM_steps (P := fun done d =>
    Follows m nets m.places d ∧ d.module = cellsRead signatures m done) ?_ ⟨h, hd⟩
  intro done c rest d hcells hd
  refine ⟨_, importCell_cellEntry hm hc hcells hd.1 hd.2, ⟨hd.1.connections, hd.1.homes⟩, ?_⟩
  show d.module.addCell _ = _
  rw [hd.2]
  simp [Module.addCell, cellsRead]

end

/-! ## Modules and designs -/

theorem portsNumbered_rebuilt {m : Module} (hp : m.PortsNumbered) (signatures : Signatures) :
    (rebuilt signatures m).PortsNumbered := by
  have hwire : ∀ id < m.wires.length, (rebuilt signatures m).wire id = rereadWire (m.wire id) := by
    intro id hid
    simp [rebuilt, Module.wire, hid]
  obtain ⟨hnodup, hlt, hwires⟩ := Module.portsNumbered_iff.mp hp
  refine Module.portsNumbered_iff.mpr ⟨hnodup, ?_, ?_⟩
  · simpa [rebuilt] using hlt
  · intro id hid
    have hid : id < m.wires.length := by simpa [rebuilt] using hid
    rw [hwire id hid]
    exact hwires id hid

/-- A module that is written is read as the module put together anew from its nets. -/
theorem importModule_exportModule {m : Module} (hm : m.WellFormed) (hp : m.PortsNumbered)
    (ho : OffsetsFit m) (signatures : Signatures) :
    importModule m.name (exportModule signatures m) = .ok (rebuilt signatures m) := by
  obtain ⟨nets, hc, hjson⟩ := exportModule_eq signatures m
  obtain ⟨d, hnets, hfollows, hmodule⟩ := importNets hm ho hc
  obtain ⟨hports, hdir⟩ := exportedPorts_eq hp
  have hstart : d = ⟨portsRead m [], d.homes⟩ := by
    have hnone : portsRead m [] = netsRead m m.wireIds := by simp [portsRead, netsRead]
    rw [hnone, ← hmodule]
  have hread : importPorts d 1 ((exportedPorts m).map fun e => (e.2, portEntry m nets e)) =
      .ok ⟨portsRead m m.ports, d.homes⟩ := by
    rw [hstart]
    exact importPorts_portEntries nets hm ho hp hports hdir d.homes
  have hsettled : Follows m nets m.places ⟨portsRead m m.ports, d.homes⟩ := ⟨rfl, hfollows.homes⟩
  obtain ⟨d', hcells, -, hmodule'⟩ := importCells hm hc signatures hsettled
    (portsRead_ports signatures hp)
  have hattributes : (exportModule signatures m).field "attributes" =
      exportAttributes m.attributes := by rw [hjson]; rfl
  have hportsField : ((exportModule signatures m).field "ports").fields =
      (exportedPorts m).map (portEntry m nets) := by rw [hjson]; rfl
  have hnetsField : ((exportModule signatures m).field "netnames").fields =
      m.wireIds.map (wireEntry m nets) := by rw [hjson]; rfl
  have hcellsField : ((exportModule signatures m).field "cells").fields =
      m.cells.map (cellEntry signatures m nets) := by rw [hjson]; rfl
  unfold importModule
  rw [hattributes, importAttributes_exportAttributes, ok_bind, hportsField, mapM_importDirection,
    ok_bind, hnetsField, hnets, ok_bind, hread, ok_bind, hcellsField, hcells, ok_bind, hmodule']
  exact congrArg Except.ok (portsNumbered_rebuilt hp signatures)

/-- A design that is written is read as the design with all its modules put together anew. -/
theorem importDesign_exportDesign {d : Design} (hd : d.WellFormed) (hp : d.PortsNumbered)
    (ho : ∀ m ∈ d.modules, OffsetsFit m) : importDesign (exportDesign d) =
      .ok ⟨d.modules.map (rebuilt (.ofDesign d))⟩ := by
  let signatures := Signatures.ofDesign d
  let read (d : Design) (m : Module) : Except Fault Design :=
    if (d.find? m.name).isSome then .error (.duplicateModule m.name)
    else d.add <$> importModule m.name (exportModule signatures m)
  have hstep : ∀ done m rest (d' : Design), done ++ m :: rest = d.modules →
      d' = ⟨done.map (rebuilt signatures)⟩ →
      ∃ t, read d' m = .ok t ∧ t = ⟨(done ++ [m]).map (rebuilt signatures)⟩ := by
    rintro done m rest _ hmodules rfl
    have hmem : m ∈ d.modules := by rw [← hmodules]; simp
    have hnew : Design.find? ⟨done.map (rebuilt signatures)⟩ m.name = none := by
      rw [Design.find?_eq_none, List.map_map]
      exact not_mem_before (hmodules.symm ▸ hd.names_nodup)
    refine ⟨_, ?_, rfl⟩
    show (if _ then _ else _ : Except Fault Design) = _
    rw [hnew, importModule_exportModule (hd.modules m hmem) (hp m hmem) (ho m hmem)]
    simp [Design.add, Functor.map, Except.map]
  obtain ⟨d', hread, hsame⟩ := foldlM_steps hstep rfl
  show (d.modules.map fun m => (m.name, exportModule signatures m)).foldlM _ _ = _
  rw [List.foldlM_map, ← hsame]
  exact hread

end ClockNet.NetlistJson

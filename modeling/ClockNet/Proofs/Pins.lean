import ClockNet.Proofs.Nets

/-! # The pins of a finished module

What is on the pins of a finished module, pin by pin. A cell of the start keeps its outputs but
on nets on which a cell has been placed (`portBit?_output`), and the inputs of a cell on a clock
path stay as they are (`portBit?_clocked`); any other input stays on its net, or goes to the wire
that feeds the cell placed there (`pin_before`, `pin_after`). A new cell is on nets that have a
cell and on wires that feed cells (`pin_of_inserted`), and each such net has the output of one
(`pin_of_placed`). -/

namespace ClockNet.Buffering

open Insertion
open Survey (portBit?)

theorem Pin.mem_ofModule_iff {m : Module} {π : Pin} : π ∈ Pin.ofModule m ↔
    ∃ k < m.cells.length, π.cell = m.cell k ∧
      portBit? (m.cell k) π.port π.index = some π.bit := by
  rw [Pin.mem_ofModule]
  constructor
  · intro h
    obtain ⟨k, hk, hc⟩ := Module.exists_id_of_mem_cells h.1
    exact ⟨k, hk, hc.symm, by rw [hc]; exact h.2⟩
  · intro hex
    obtain ⟨k, hk, hc, hb⟩ := hex
    rw [hc]
    exact ⟨Module.cell_mem hk, hb⟩

theorem Pin.owns {m : Module} (hm : m.WellFormed) {π : Pin} (h : π ∈ Pin.ofModule m) :
    m.Owns π.bit := by
  obtain ⟨hc, hb⟩ := Pin.mem_ofModule.mp h
  obtain ⟨signal, hsignal, hbit⟩ := Option.bind_eq_some_iff.mp hb
  exact (hm.cell_bits _ hc _ (OrderedTable.mem_of_get? hsignal) _
    (List.mem_of_getElem? hbit)).owns

/-- A bit on an output of a cell of a module. -/
structure OutputAt (signatures : Signatures) (m : Module) (k : CellId) (port : String) (j : Nat)
    (b : Bit) : Prop where
  lt : k < m.cells.length
  output : signatures.isOutput (m.cell k) port = true
  bit : portBit? (m.cell k) port j = some b

theorem mem_drivenBits {o : Options} {signatures : Signatures} {m : Module} {b : Bit} :
    b ∈ drivenBits o signatures m ↔ ∃ π ∈ Pin.ofModule m, π.cell.type ∉ o.exempt ∧
      signatures.isOutput π.cell π.port = true ∧ π.bit = b := by
  unfold drivenBits
  simp only [List.mem_flatMap, List.mem_filter, Bool.not_eq_true', List.contains_eq_mem,
    decide_eq_false_iff_not]
  constructor
  · intro h
    obtain ⟨c, ⟨hc, hexempt⟩, ⟨port, signal⟩, ⟨he, hout⟩, hb⟩ := h
    obtain ⟨j, hj⟩ := List.mem_iff_getElem?.mp hb
    refine ⟨⟨c, port, j, b⟩, Pin.mem_ofModule.mpr ⟨hc, ?_⟩, hexempt, hout, rfl⟩
    exact Option.bind_eq_some_iff.mpr ⟨signal, OrderedTable.get?_of_mem he, hj⟩
  · intro h
    obtain ⟨π, hπ, hexempt, hout, rfl⟩ := h
    obtain ⟨hc, hb⟩ := Pin.mem_ofModule.mp hπ
    obtain ⟨signal, hsignal, hbit⟩ := Option.bind_eq_some_iff.mp hb
    exact ⟨π.cell, ⟨hc, hexempt⟩, (π.port, signal), ⟨OrderedTable.mem_of_get? hsignal, hout⟩,
      List.mem_of_getElem? hbit⟩

section
variable {e : Scene} {s : Insertion} {k : CellId} {port : String} {j : Nat} {b : Bit}

/-! ## Nets on which a cell has been placed -/

theorem drive_of_placed (hs : s.Fresh) {net : Bit}
    (h : net ∈ (s.inserted e).placed.map Prod.fst) : ∃ id i, .drive id i ∈ actions e s.module ∧
      net = e.aliases.root (.wire id i) := by
  obtain ⟨id, i, hdrive, -, he⟩ := (mem_placed_inserted hs net).mp h
  exact ⟨id, i, hdrive, he⟩

theorem wanting_of_placed (hs : s.Fresh) {net : Bit}
    (h : net ∈ (s.inserted e).placed.map Prod.fst) : e.clocks.Wanting net := by
  obtain ⟨id, i, hdrive, rfl⟩ := drive_of_placed hs h
  exact (mem_actions_drive.mp hdrive).2.1

theorem netOf_of_placed (hs : s.Fresh) (ha : e.aliases = .ofConnections s.module.connections)
    {net : Bit} (h : net ∈ (s.inserted e).placed.map Prod.fst) : netOf s.module net = net := by
  obtain ⟨id, i, -, rfl⟩ := drive_of_placed hs h
  unfold netOf
  rw [ha]
  exact (AliasMap.settled_ofConnections _).root_root _

theorem owns_of_placed (hs : s.Fresh) (hm : s.module.WellFormed)
    (ha : e.aliases = .ofConnections s.module.connections) {net : Bit}
    (h : net ∈ (s.inserted e).placed.map Prod.fst) : s.module.Owns net := by
  obtain ⟨q, hq, rfl⟩ := List.mem_map.mp h
  exact owns_placed hs hm ha hq

/-- A pin before the handover is on an own bit of the module, or on a wire that feeds a cell. -/
theorem owns_or_feed (hs : s.Fresh) (hm : s.module.WellFormed)
    (ha : e.aliases = .ofConnections s.module.connections)
    (hk : k < (s.inserted e).module.cells.length)
    (h : portBit? ((s.inserted e).module.cell k) port j = some b) :
    s.module.Owns b ∨ ∃ f, IsFeed s.module (s.inserted e) f ∧ b = .wire f 0 := by
  have hf := fitted_inserted (e := e) hs
  by_cases hold : k < s.module.cells.length
  · rw [hf.grown.cell hold] at h
    exact .inl (Pin.owns (π := ⟨s.module.cell k, port, j, b⟩) hm
      (Pin.mem_ofModule_iff.mpr ⟨k, hold, rfl, h⟩))
  · obtain ⟨id, i, spec, output, feed, hdrive, -, hc, ho⟩ := hf.cells k (Nat.le_of_not_lt hold) hk
    obtain ⟨name, hshape⟩ := hc.shape
    rw [hshape] at h
    obtain ⟨signal, hsignal, hbit⟩ := Option.bind_eq_some_iff.mp h
    have hmem := List.mem_of_getElem? hbit
    rcases mem_bufferCell_ports (OrderedTable.mem_of_get? hsignal) with he | he
    · obtain ⟨rfl, rfl⟩ := Prod.mk.inj he
      rw [List.mem_singleton.mp hmem]
      rcases ho with ⟨rfl, -⟩ | ⟨f, hfeed, rfl⟩
      · refine .inl ?_
        rw [ha]
        exact (hm.owns_root _).mpr (Module.lt_of_place (mem_actions_drive.mp hdrive).1.place)
      · exact .inr ⟨f, hfeed, rfl⟩
    · obtain ⟨rfl, rfl⟩ := Prod.mk.inj he
      rw [List.mem_singleton.mp hmem]
      exact .inr ⟨feed, hc.feeds, rfl⟩

/-! ## Cells of the start -/

theorem portBit?_handedCell (e : Scene) (u : Insertion) (r : Module) (c : Cell) :
    portBit? (handedCell e u r k c) port j =
      ((c.ports.get? port).map (handedSignal e u r k c port)).bind (·[j]?) := by
  unfold portBit? handedCell
  dsimp only
  rw [OrderedTable.get?_mapValues]

/-- The outputs of all cells, the inserted ones as well, are moved bit by bit. -/
theorem portBit?_moved (hk : k < (s.inserted e).module.cells.length)
    (ho : e.signatures.isOutput ((s.inserted e).module.cell k) port = true) :
    portBit? ((s.complete e).module.cell k) port j =
      (portBit? ((s.inserted e).module.cell k) port j).map (movedBit e (s.inserted e) k) := by
  rw [complete_cell hk, portBit?_handedCell]
  unfold portBit? handedSignal
  rw [ho]
  cases ((s.inserted e).module.cell k).ports.get? port with
  | none => rfl
  | some signal => simp

/-- A driver of the start leaves exactly the nets on which a cell has been placed. -/
theorem movedBit_old (hs : s.Fresh) (ha : e.aliases = .ofConnections s.module.connections)
    (hk : k < s.module.cells.length) (b : Bit) :
    (netOf s.module b ∉ (s.inserted e).placed.map Prod.fst ∧ movedBit e (s.inserted e) k b = b) ∨
    (netOf s.module b ∈ (s.inserted e).placed.map Prod.fst ∧
      ∃ f, IsFeed s.module (s.inserted e) f ∧ movedBit e (s.inserted e) k b = .wire f 0) := by
  have hf := fitted_inserted (e := e) hs
  have hnet : e.aliases.root b = netOf s.module b := by
    rw [ha]
    rfl
  unfold movedBit
  rw [hnet]
  cases hp : (s.inserted e).placedOn? (netOf s.module b) with
  | none => exact .inl ⟨placedOn?_eq_none.mp hp, rfl⟩
  | some p =>
    have hfits := hf.placed _ p (mem_of_placedOn? hp)
    have hnew : p.cell ≠ k := by
      obtain ⟨_, _, _, _, -, -, -, hc, -⟩ := hfits
      exact Nat.ne_of_gt (Nat.lt_of_lt_of_le hk hc.new)
    exact .inr ⟨mem_placed.mpr ⟨p, hp⟩, p.feed, hfits.isFeed, if_neg hnew⟩

/-- Where a cell has been placed on the net of a driver, only the driver that is this cell stays. -/
theorem movedBit_of_placed (ha : e.aliases = .ofConnections s.module.connections) {net : Bit}
    {p : Placement} (hp : (s.inserted e).placedOn? net = some p) (hb : netOf s.module b = net)
    (k : CellId) :
    movedBit e (s.inserted e) k b = if p.cell = k then b else .wire p.feed 0 := by
  have hroot : e.aliases.root b = net := by
    rw [ha]
    exact hb
  unfold movedBit
  rw [hroot, hp]

theorem portBit?_output (hs : s.Fresh) (hk : k < s.module.cells.length)
    (ho : e.signatures.isOutput (s.module.cell k) port = true) :
    portBit? ((s.complete e).module.cell k) port j =
      (portBit? (s.module.cell k) port j).map (movedBit e (s.inserted e) k) := by
  have hf := fitted_inserted (e := e) hs
  have hcell := hf.grown.cell hk
  rw [← hcell]
  exact portBit?_moved (Nat.lt_of_lt_of_le hk hf.grown.cells_length) (hcell.symm ▸ ho)

theorem portBit?_clocked (hs : s.Fresh) (hk : k < s.module.cells.length)
    (ho : e.signatures.isOutput (s.module.cell k) port = false)
    (hc : (s.module.cell k).type ∈ s.tags.clocked) :
    portBit? ((s.complete e).module.cell k) port j = portBit? (s.module.cell k) port j := by
  have hrestores : restores e.options (s.inserted e).tags (s.module.cell k) = false := by
    unfold restores
    rw [tags_inserted.2]
    simp [hc]
  rw [complete_cell_old hs hk, portBit?_handedCell]
  unfold portBit? handedSignal
  rw [ho, hrestores]
  cases (s.module.cell k).ports.get? port with
  | none => rfl
  | some signal => simp

/-- A bit is handed over to another one: it stays on its net, or goes to a wire that feeds the
cell placed there. -/
def HandedOver (e : Scene) (s : Insertion) (b b' : Bit) : Prop :=
  netOf (s.complete e).module b' = netOf (s.complete e).module b ∨
    (netOf s.module b ∈ (s.inserted e).placed.map Prod.fst ∧ ∃ f,
      IsFeed s.module (s.inserted e) f ∧
      netOf (s.complete e).module b' = netOf (s.complete e).module (.wire f 0))

theorem forall₂_handedOver (hs : s.Fresh) (hm : s.module.WellFormed)
    (ha : e.aliases = .ofConnections s.module.connections) (hk : k < s.module.cells.length)
    (port : String) (signal : Signal) : List.Forall₂ (HandedOver e s) signal
      (handedSignal e (s.inserted e) (s.inserted e).renamed k (s.module.cell k) port signal) := by
  unfold handedSignal
  split
  · rw [List.forall₂_map_right_iff]
    refine List.forall₂_same.mpr ?_
    intro b _
    rcases movedBit_old (e := e) hs ha hk b with ⟨-, he⟩ | ⟨hp, f, hfeed, he⟩
    · rw [he]
      exact .inl rfl
    · rw [he]
      exact .inr ⟨hp, f, hfeed, rfl⟩
  · split
    · refine (forall₂_restoredSignal (widths_renamed hs) signal).imp ?_
      intro b b' hb
      rcases hb with rfl | ⟨q, hq, i, hi, rfl, rfl⟩
      · exact .inl rfl
      · rw [(width_renamed hs hq).1] at hi
        rcases netOf_complete_copy hs hm ha hq hi with he | ⟨p, hp, he⟩
        · exact .inl he
        · refine .inr ⟨List.mem_map_of_mem hp, p.feed, ?_, he⟩
          exact ((fitted_inserted hs).placed _ p hp).isFeed
    · exact List.forall₂_same.mpr fun b _ => .inl rfl

/-- A pin of the start is a pin of the end, with its bit handed over. -/
theorem pin_after (hs : s.Fresh) (hm : s.module.WellFormed)
    (ha : e.aliases = .ofConnections s.module.connections) (hk : k < s.module.cells.length)
    (h : portBit? (s.module.cell k) port j = some b) :
    ∃ b', portBit? ((s.complete e).module.cell k) port j = some b' ∧ HandedOver e s b b' := by
  obtain ⟨signal, hsignal, hbit⟩ := Option.bind_eq_some_iff.mp h
  rw [complete_cell_old hs hk, portBit?_handedCell, hsignal]
  exact forall₂_getElem? (forall₂_handedOver hs hm ha hk port signal) hbit

/-- A pin of a cell of the start was a pin then. -/
theorem pin_before (hs : s.Fresh) (hm : s.module.WellFormed)
    (ha : e.aliases = .ofConnections s.module.connections) (hk : k < s.module.cells.length)
    {b' : Bit} (h : portBit? ((s.complete e).module.cell k) port j = some b') :
    ∃ b, portBit? (s.module.cell k) port j = some b ∧ HandedOver e s b b' := by
  rw [complete_cell_old hs hk, portBit?_handedCell] at h
  obtain ⟨signal', hsignal', hbit⟩ := Option.bind_eq_some_iff.mp h
  obtain ⟨signal, hsignal, rfl⟩ := Option.map_eq_some_iff.mp hsignal'
  obtain ⟨b, hb, hhanded⟩ :=
    forall₂_getElem? (forall₂_handedOver hs hm ha hk port signal).flip hbit
  exact ⟨b, Option.bind_eq_some_iff.mpr ⟨signal, hsignal, hb⟩, hhanded⟩

/-! ## New cells -/

theorem get?_bufferCell {name type : String} {spec : BufferSpec} {output : Bit} {feed : WireId}
    (hne : spec.output ≠ spec.input) :
    (bufferCell name type spec output feed).ports.get? spec.output = some [output] := by
  refine OrderedTable.get?_of_mem ?_
  rw [bufferCell_ports hne]
  exact List.mem_cons_self

theorem get?_inserted {u : Insertion} {r : Module} {name : String} {spec : BufferSpec}
    {output : Bit} {feed : WireId} (hne : spec.output ≠ spec.input)
    (hout : e.signatures.isOutput (bufferCell name spec.type spec output feed) spec.output = true) :
    (handedCell e u r k (bufferCell name spec.type spec output feed)).ports.get? spec.output =
      some [movedBit e u k output] := by
  unfold handedCell
  dsimp only
  rw [OrderedTable.get?_mapValues, get?_bufferCell hne, Option.map_some]
  unfold handedSignal
  rw [if_pos hout]
  rfl

/-- An output from which no driver moves stays where it is, if it counts as an output or its cell is
not restored. -/
theorem get?_kept {u : Insertion} {r : Module} {name : String} {spec : BufferSpec} {output : Bit}
    {feed : WireId} (hne : spec.output ≠ spec.input)
    (hkeeps :
      e.signatures.isOutput (bufferCell name spec.type spec output feed) spec.output = true ∨
        restores e.options u.tags (bufferCell name spec.type spec output feed) = false)
    (hstays : movedBit e u k output = output) :
    (handedCell e u r k (bufferCell name spec.type spec output feed)).ports.get? spec.output =
      some [output] := by
  by_cases hout : e.signatures.isOutput (bufferCell name spec.type spec output feed) spec.output =
      true
  · rw [get?_inserted hne hout, hstays]
  · unfold handedCell
    dsimp only
    rw [OrderedTable.get?_mapValues, get?_bufferCell hne, Option.map_some]
    unfold handedSignal
    rw [if_neg hout, hkeeps.resolve_left hout, Bool.and_false, if_neg Bool.false_ne_true]

/-- No insertable cell loses the net that it takes: its output counts as one, or its type is that
of the buffer, of which no cells are restored. -/
def KeepsOutputs (e : Scene) : Prop := ∀ spec ∈ e.options.placeable,
  spec.output ≠ spec.input ∧ ((∀ name output feed,
    e.signatures.isOutput (bufferCell name spec.type spec output feed) spec.output = true) ∨
      e.options.buffer.map (·.type) = some spec.type)

theorem DrivesOutputs.keeps (h : DrivesOutputs e) : KeepsOutputs e :=
  fun spec hspec => (h spec hspec).imp_right .inl

theorem restores_buffer {tags : Tags} {c : Cell}
    (h : e.options.buffer.map (·.type) = some c.type) : restores e.options tags c = false := by
  unfold restores
  rw [h, bne_self_eq_false, Bool.and_false]

theorem complete_cellAt (hs : s.Fresh) (hm : s.module.WellFormed)
    (ha : e.aliases = .ofConnections s.module.connections) (hd : DrivesOutputs e)
    {spec : BufferSpec} {output : Bit} {feed : WireId} (hspec : spec ∈ e.options.placeable)
    (hc : CellAt s.module (s.inserted e) k spec output feed) :
    ((s.complete e).module.cell k).type = spec.type ∧
      e.signatures.isOutput ((s.complete e).module.cell k) spec.output = true ∧
      ((s.complete e).module.cell k).ports.entries =
        [(spec.output, [movedBit e (s.inserted e) k output]), (spec.input, [.wire feed 0])] := by
  obtain ⟨name, hshape⟩ := hc.shape
  obtain ⟨hne, hout⟩ := hd spec hspec
  rw [complete_cell hc.lt, hshape]
  exact ⟨rfl, hout name output feed,
    ports_handedCell hs hm ha hne hc.feeds.new (hout name output feed)⟩

theorem pin_of_cellAt (hs : s.Fresh) (hm : s.module.WellFormed)
    (ha : e.aliases = .ofConnections s.module.connections) (hd : DrivesOutputs e)
    {spec : BufferSpec} {output : Bit} {feed : WireId} (hspec : spec ∈ e.options.placeable)
    (hc : CellAt s.module (s.inserted e) k spec output feed)
    (hb : portBit? ((s.complete e).module.cell k) port j = some b) :
    (port = spec.output ∧ j = 0 ∧ b = movedBit e (s.inserted e) k output) ∨
      (port = spec.input ∧ j = 0 ∧ b = .wire feed 0) := by
  obtain ⟨signal, hsignal, hbit⟩ := Option.bind_eq_some_iff.mp hb
  have hmem := OrderedTable.mem_of_get? hsignal
  rw [(complete_cellAt hs hm ha hd hspec hc).2.2] at hmem
  have hfirst : ∀ {x : Bit}, [x][j]? = some b → j = 0 ∧ b = x := by
    intro x hx
    obtain ⟨hj, he⟩ := List.getElem?_eq_some_iff.mp hx
    have hj : j = 0 := by simpa using hj
    subst hj
    exact ⟨rfl, he.symm⟩
  rcases List.mem_pair.mp hmem with he | he
  · obtain ⟨rfl, rfl⟩ := Prod.mk.inj he
    exact .inl ⟨rfl, hfirst hbit⟩
  · obtain ⟨rfl, rfl⟩ := Prod.mk.inj he
    exact .inr ⟨rfl, hfirst hbit⟩

theorem pin_of_new (hs : s.Fresh) (hm : s.module.WellFormed)
    (ha : e.aliases = .ofConnections s.module.connections) (hd : DrivesOutputs e)
    (hk : s.module.cells.length ≤ k) (hlt : k < (s.complete e).module.cells.length) :
    ∃ spec ∈ e.options.placeable, ((s.complete e).module.cell k).type = spec.type ∧
      ∀ port j b, portBit? ((s.complete e).module.cell k) port j = some b →
        (∃ p, (s.inserted e).placedOn? b = some p ∧ p.cell = k) ∨
          ∃ f, IsFeed s.module (s.inserted e) f ∧ b = .wire f 0 := by
  have hf := fitted_inserted (e := e) hs
  rw [length_complete_cells] at hlt
  obtain ⟨id, i, spec, output, feed, hdrive, hspec, hc, ho⟩ := hf.cells k hk hlt
  have hmem := mem_placeable_of_mem_parts hspec
  refine ⟨spec, hmem, (complete_cellAt hs hm ha hd hmem hc).1, ?_⟩
  intro port j b hb
  rcases pin_of_cellAt hs hm ha hd hmem hc hb with ⟨-, -, rfl⟩ | ⟨-, -, rfl⟩
  · rcases ho with ⟨rfl, hhead⟩ | ⟨f, hfeed, rfl⟩
    · -- the first cell of a chain stays on its net, or its output goes to a wire that feeds
      -- the cell placed there later
      have hplaced : e.aliases.root (.wire id i) ∈ (s.inserted e).placed.map Prod.fst := by
        refine (mem_placed_inserted hs _).mpr ⟨id, i, hdrive, ?_, rfl⟩
        intro hnil
        rw [hnil] at hhead
        cases hhead
      obtain ⟨p, hp⟩ := mem_placed.mp hplaced
      rw [movedBit_of_placed ha hp (netOf_of_placed hs ha hplaced)]
      split
      · exact .inl ⟨p, hp, ‹_›⟩
      · exact .inr ⟨p.feed, (hf.placed _ p (mem_of_placedOn? hp)).isFeed, rfl⟩
    · rw [movedBit_of_not_owns hs hm ha (Module.not_owns hfeed.new 0)]
      exact .inr ⟨f, hfeed, rfl⟩
  · exact .inr ⟨feed, hc.feeds, rfl⟩

theorem pin_of_inserted (hs : s.Fresh) (hm : s.module.WellFormed)
    (ha : e.aliases = .ofConnections s.module.connections) (hd : DrivesOutputs e)
    (hk : s.module.cells.length ≤ k) (hlt : k < (s.complete e).module.cells.length) :
    ∃ spec ∈ e.options.placeable, ((s.complete e).module.cell k).type = spec.type ∧
      ∀ port j b, portBit? ((s.complete e).module.cell k) port j = some b →
        b ∈ (s.inserted e).placed.map Prod.fst ∨
          ∃ f, IsFeed s.module (s.inserted e) f ∧ b = .wire f 0 := by
  obtain ⟨spec, hspec, htype, hpins⟩ := pin_of_new hs hm ha hd hk hlt
  refine ⟨spec, hspec, htype, fun port j b hb => (hpins port j b hb).imp_left ?_⟩
  intro hex
  obtain ⟨p, hp, -⟩ := hex
  exact mem_placed.mpr ⟨p, hp⟩

/-- Each net on which a cell has been placed has the output of the first cell of its chain. -/
theorem pin_of_placed (hs : s.Fresh) (ha : e.aliases = .ofConnections s.module.connections)
    (hd : KeepsOutputs e) {net : Bit} (h : net ∈ (s.inserted e).placed.map Prod.fst) :
    ∃ k, s.module.cells.length ≤ k ∧ k < (s.complete e).module.cells.length ∧
      ∃ id i spec, .drive id i ∈ actions e s.module ∧
        (parts e s.module (s.module.wire id) (.wire id i)).head? = some spec ∧
        ((s.complete e).module.cell k).type = spec.type ∧
        ((s.complete e).module.cell k).ports.get? spec.output = some [net] := by
  have hf := fitted_inserted (e := e) hs
  obtain ⟨p, hp⟩ := mem_placed.mp h
  obtain ⟨id, i, spec, f, hdrive, -, hhead, hc, -⟩ := hf.placed net p (mem_of_placedOn? hp)
  obtain ⟨name, hshape⟩ := hc.shape
  obtain ⟨hne, hkeeps⟩ := hd spec (mem_placeable_of_mem_parts (List.mem_of_mem_head? hhead))
  have hstays : movedBit e (s.inserted e) p.cell net = net := by
    rw [movedBit_of_placed ha hp (netOf_of_placed hs ha h), if_pos rfl]
  refine ⟨p.cell, hc.new, ?_, id, i, spec, hdrive, hhead, ?_, ?_⟩
  · rw [length_complete_cells]
    exact hc.lt
  · rw [complete_cell hc.lt, hshape]
    rfl
  · rw [complete_cell hc.lt, hshape]
    exact get?_kept hne (hkeeps.imp (fun hout => hout _ _ _) restores_buffer) hstays

/-! ## Drivers -/

/-- The outputs in the end: those of the start on nets without a new cell; of each such net the
output of the cell placed there; and outputs on wires that feed new cells. -/
theorem output_complete (hs : s.Fresh) (hm : s.module.WellFormed)
    (ha : e.aliases = .ofConnections s.module.connections) (hd : DrivesOutputs e)
    (h : OutputAt e.signatures (s.complete e).module k port j b) :
    (OutputAt e.signatures s.module k port j b ∧
      ((s.complete e).module.cell k).type = (s.module.cell k).type ∧
      netOf s.module b ∉ (s.inserted e).placed.map Prod.fst) ∨
    (∃ p, (s.inserted e).placedOn? b = some p ∧ p.cell = k) ∨
    ∃ f, IsFeed s.module (s.inserted e) f ∧ b = .wire f 0 := by
  obtain ⟨hk, hout, hb⟩ := h
  by_cases hold : k < s.module.cells.length
  · have hcell := complete_cell_old (e := e) hs hold
    rw [hcell] at hout
    have hout' : e.signatures.isOutput (s.module.cell k) port = true := hout
    rw [portBit?_output hs hold hout'] at hb
    obtain ⟨b₀, hb₀, rfl⟩ := Option.map_eq_some_iff.mp hb
    rcases movedBit_old (e := e) hs ha hold b₀ with ⟨hp, hmoved⟩ | ⟨-, f, hfeed, hmoved⟩
    · rw [hmoved]
      exact .inl ⟨⟨hold, hout', hb₀⟩, by rw [hcell]; rfl, hp⟩
    · exact .inr (.inr ⟨f, hfeed, hmoved⟩)
  · obtain ⟨spec, -, -, hpins⟩ := pin_of_new hs hm ha hd (Nat.le_of_not_lt hold) hk
    exact .inr (hpins _ _ _ hb)

/-- What is driven in the end: what was driven, on nets without a new cell; those nets; and the
wires that feed new cells. -/
theorem mem_drivenBits_complete (hs : s.Fresh) (hm : s.module.WellFormed)
    (ha : e.aliases = .ofConnections s.module.connections) (hd : DrivesOutputs e)
    (h : b ∈ drivenBits e.options e.signatures (s.complete e).module) :
    (b ∈ drivenBits e.options e.signatures s.module ∧
      netOf s.module b ∉ (s.inserted e).placed.map Prod.fst) ∨
    b ∈ (s.inserted e).placed.map Prod.fst ∨
    ∃ f, IsFeed s.module (s.inserted e) f ∧ b = .wire f 0 := by
  obtain ⟨π, hπ, hexempt, hout, rfl⟩ := mem_drivenBits.mp h
  obtain ⟨k, hk, hc, hb⟩ := Pin.mem_ofModule_iff.mp hπ
  rw [hc] at hexempt hout
  rcases output_complete hs hm ha hd ⟨hk, hout, hb⟩ with ⟨hat, htype, hp⟩ | ⟨p, hp, -⟩ | hfeed
  · rw [htype] at hexempt
    refine .inl ⟨mem_drivenBits.mpr
      ⟨⟨s.module.cell k, π.port, π.index, π.bit⟩, ?_, hexempt, hat.output, rfl⟩, hp⟩
    exact Pin.mem_ofModule_iff.mpr ⟨k, hat.lt, rfl, hat.bit⟩
  · exact .inr (.inl (mem_placed.mpr ⟨p, hp⟩))
  · exact .inr (.inr hfeed)

theorem mem_drivenBits_stays (hs : s.Fresh) (ha : e.aliases = .ofConnections s.module.connections)
    (h : b ∈ drivenBits e.options e.signatures s.module)
    (hp : netOf s.module b ∉ (s.inserted e).placed.map Prod.fst) :
    b ∈ drivenBits e.options e.signatures (s.complete e).module := by
  obtain ⟨π, hπ, hexempt, hout, rfl⟩ := mem_drivenBits.mp h
  obtain ⟨k, hk, hc, hb⟩ := Pin.mem_ofModule_iff.mp hπ
  rw [hc] at hexempt hout
  have hcell := complete_cell_old (e := e) hs hk
  have hk' : k < (s.complete e).module.cells.length := by
    rw [length_complete_cells]
    exact Nat.lt_of_lt_of_le hk (fitted_inserted hs).grown.cells_length
  refine mem_drivenBits.mpr
    ⟨⟨(s.complete e).module.cell k, π.port, π.index, π.bit⟩, ?_, ?_, ?_, rfl⟩
  · refine Pin.mem_ofModule_iff.mpr ⟨k, hk', rfl, ?_⟩
    rw [portBit?_output hs hk hout, hb, Option.map_some]
    rcases movedBit_old (e := e) hs ha hk π.bit with ⟨-, hmoved⟩ | ⟨hp', -⟩
    · rw [hmoved]
    · exact absurd hp' hp
  · rw [hcell]
    exact hexempt
  · rw [hcell]
    exact hout

end

end ClockNet.Buffering

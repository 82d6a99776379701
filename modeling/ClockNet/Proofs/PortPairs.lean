import ClockNet.Proofs.SingleOutput
import ClockNet.Proofs.Words

/-! # The two ports of an inserted cell

A port pair is read as two names, or as one name for both ports (`parse_eq_ok`). A cell has one
signal on a port, so a cell with one name for both ports has that on the wire that feeds it, and
drives nothing (`added`). Where such a cell is placed on a net, the drivers of the net are moved all
the same: the net keeps an output exactly if the ports of the cell have two names and the one counts
as an output (`driven_placed_iff`, `parsed_drives`). -/

namespace ClockNet.Buffering

open Insertion
open Survey (portBit?)

/-! ## Reading a pair -/

/-- What the text of a port pair says: one name for both ports, or the output and the input. -/
inductive PortPair : String → String → String → Prop where
  | single {name : String} (h : ':' ∉ name.toList) : PortPair name name name
  | pair {output input : String} (h : ':' ∉ output.toList) :
      PortPair (output ++ ":" ++ input) output input

theorem portPair_iff {ports output input : String} : PortPair ports output input ↔
    (Text.splitString ':' ports).getD (ports, ports) = (output, input) := by
  unfold Text.splitString
  constructor
  · intro h
    cases h with
    | single h => rw [Text.splitAtFirst_eq_none.mpr h]; rfl
    | pair h =>
      have hsplit : Text.splitAtFirst ':' (output ++ ":" ++ input).toList =
          some (output.toList, input.toList) :=
        Text.splitAtFirst_eq_some.mpr ⟨h, by simp⟩
      rw [hsplit]
      simp
  · intro h
    cases hsplit : Text.splitAtFirst ':' ports.toList with
    | none =>
      rw [hsplit] at h
      obtain ⟨rfl, rfl⟩ := Prod.mk.inj h
      exact .single (Text.splitAtFirst_eq_none.mp hsplit)
    | some parts =>
      obtain ⟨before, after⟩ := parts
      rw [hsplit] at h
      obtain ⟨rfl, rfl⟩ := Prod.mk.inj h
      obtain ⟨hout, htext⟩ := Text.splitAtFirst_eq_some.mp hsplit
      have hports : ports = String.ofList before ++ ":" ++ String.ofList after := by
        refine String.toList_injective ?_
        simp [htext]
      rw [hports]
      exact .pair (by simpa using hout)

theorem parse_eq_ok {type ports : String} {spec : BufferSpec} :
    BufferSpec.parse type ports = .ok spec ↔ spec.type = type ∧
      PortPair ports spec.output spec.input ∧ type ≠ "" ∧ spec.output ≠ "" ∧ spec.input ≠ "" := by
  rw [portPair_iff]
  unfold BufferSpec.parse
  generalize (Text.splitString ':' ports).getD (ports, ports) = names
  obtain ⟨output, input⟩ := names
  dsimp only
  constructor
  · intro h
    split at h
    · cases h
    · rename_i hempty
      cases h
      simp only [Bool.or_eq_true, decide_eq_true_eq, not_or] at hempty
      exact ⟨rfl, rfl, hempty.1.1, hempty.1.2, hempty.2⟩
  · intro h
    obtain ⟨rfl, hnames, htype, hout, hin⟩ := h
    obtain ⟨rfl, rfl⟩ := Prod.mk.inj hnames
    simp [htype, hout, hin]

/-! ## Adding a cell -/

/-- What adding a cell to a module does: the cell comes last, on a new wire of one bit, and drives
the output bit if its ports have two names. -/
structure Added (m : Module) (cellType : String) (spec : BufferSpec) (output : Bit) : Prop where
  place : (addBuffer m cellType spec output).1 = ⟨m.cells.length, m.wires.length⟩
  cells : (addBuffer m cellType spec output).2.cells.length = m.cells.length + 1
  wires : (addBuffer m cellType spec output).2.wires.length = m.wires.length + 1
  width : ((addBuffer m cellType spec output).2.wire m.wires.length).width = 1
  type : ((addBuffer m cellType spec output).2.cell m.cells.length).type = cellType
  input : ((addBuffer m cellType spec output).2.cell m.cells.length).ports.get? spec.input =
      some [.wire m.wires.length 0] ∧
    ((addBuffer m cellType spec output).2.cell m.cells.length).directions.get? spec.input =
      some .input
  output : (((addBuffer m cellType spec output).2.cell m.cells.length).ports.get? spec.output =
      some [output] ∧
    ((addBuffer m cellType spec output).2.cell m.cells.length).directions.get? spec.output =
      some .output) ↔ spec.output ≠ spec.input

theorem bufferCell_get? (name type : String) (spec : BufferSpec) (output : Bit) (feed : WireId)
    (port : String) : (bufferCell name type spec output feed).ports.get? port =
      if port = spec.input then some [.wire feed 0] else if port = spec.output then some [output]
      else none := by
  simp only [bufferCell, Cell.setPort, Cell.setDirection, OrderedTable.get?_set]
  rfl

theorem added (m : Module) (type : String) (spec : BufferSpec) (output : Bit) :
    Added m type spec output := by
  obtain ⟨name, wireName, n, -, -, he⟩ := addBuffer_module m type spec output
  have hcell : (addBuffer m type spec output).2.cell m.cells.length =
      bufferCell name type spec output m.wires.length := by
    rw [he]
    exact cell_append_new rfl
  refine ⟨rfl, addBuffer_cells_length m type spec output, addBuffer_wires_length m type spec output,
    ?_, ?_, ?_, ?_⟩
  · have hwires : (addBuffer m type spec output).2.wires =
        m.wires ++ [{ name := wireName, width := 1 }] := by rw [he]
    rw [wire_append_new hwires]
  · rw [hcell]
    rfl
  · rw [hcell, bufferCell_get?, bufferCell_direction, if_pos rfl, if_pos rfl]
    exact ⟨rfl, rfl⟩
  · rw [hcell, bufferCell_get?, bufferCell_direction]
    by_cases hne : spec.output = spec.input
    · simp [hne]
    · simp [hne]

/-! ## Nets that have taken a cell -/

section
variable {e : Scene} {s : Insertion} {k : CellId} {port : String} {j : Nat} {b net : Bit}
  {p : Placement}

/-- A bit that is on a net in the end on which cells have been placed has not been moved, and is one
of the cell placed last. -/
theorem movedBit_on_placed (hs : s.Fresh) (hm : s.module.WellFormed)
    (ha : e.aliases = .ofConnections s.module.connections)
    (hp : (s.inserted e).placedOn? net = some p) (hk : k < (s.inserted e).module.cells.length)
    (hb : portBit? ((s.inserted e).module.cell k) port j = some b)
    (hnet : netOf (s.complete e).module (movedBit e (s.inserted e) k b) =
      netOf (s.complete e).module net) :
    k = p.cell ∧ movedBit e (s.inserted e) k b = b := by
  have hplaced := mem_placed.mpr ⟨p, hp⟩
  have howns := owns_of_placed hs hm ha hplaced
  have hroot : e.aliases.root b = netOf s.module b := by
    rw [ha]
    rfl
  -- a moved output is on a wire that feeds a cell, and so on no such net
  have hfeed : ∀ f, IsFeed s.module (s.inserted e) f →
      netOf (s.complete e).module (.wire f 0) ≠ netOf (s.complete e).module net := fun f hf =>
    (netOf_feed_ne hs hm ha hplaced hf).2
  unfold movedBit at hnet ⊢
  rw [hroot] at hnet ⊢
  cases hq : (s.inserted e).placedOn? (netOf s.module b) with
  | none =>
    rw [hq] at hnet
    rcases owns_or_feed hs hm ha hk hb with hb' | ⟨f, hf, rfl⟩
    · rw [netOf_complete_iff hs hm ha hb' howns, netOf_of_placed hs ha hplaced] at hnet
      rw [hnet, hp] at hq
      cases hq
    · exact absurd hnet (hfeed f hf)
  | some q =>
    rw [hq] at hnet
    dsimp only at hnet ⊢
    have hplaced' := mem_placed.mpr ⟨q, hq⟩
    have hf := fitted_inserted (e := e) hs
    split at hnet
    · rename_i hcell
      rw [if_pos hcell]
      have howns' := owns_of_placed hs hm ha hplaced'
      rw [← netOf_complete_root hs ha, netOf_complete_iff hs hm ha howns' howns,
        netOf_of_placed hs ha hplaced', netOf_of_placed hs ha hplaced] at hnet
      rw [hnet, hp] at hq
      cases hq
      exact ⟨hcell.symm, rfl⟩
    · exact absurd hnet (hfeed q.feed (hf.placed _ q (mem_of_placedOn? hq)).isFeed)

/-- Whatever names the ports of inserted cells have, an output that is on a net in the end on which
cells have been placed is one of the cell placed last, and was there before the handover. -/
theorem output_before (hs : s.Fresh) (hm : s.module.WellFormed)
    (ha : e.aliases = .ofConnections s.module.connections)
    (hp : (s.inserted e).placedOn? net = some p)
    (h : OutputAt e.signatures (s.complete e).module k port j b)
    (hnet : netOf (s.complete e).module b = netOf (s.complete e).module net) :
    k = p.cell ∧ OutputAt e.signatures (s.inserted e).module k port j b := by
  obtain ⟨hk, hout, hb⟩ := h
  rw [length_complete_cells] at hk
  rw [complete_cell hk] at hout
  have hout' : e.signatures.isOutput ((s.inserted e).module.cell k) port = true := hout
  rw [portBit?_moved hk hout'] at hb
  obtain ⟨b₀, hb₀, rfl⟩ := Option.map_eq_some_iff.mp hb
  obtain ⟨hcell, hstays⟩ := movedBit_on_placed hs hm ha hp hk hb₀ hnet
  refine ⟨hcell, hk, hout', ?_⟩
  rw [hstays]
  exact hb₀

theorem isOutput_cellAt {spec : BufferSpec} {output : Bit} {feed : WireId}
    (hc : CellAt s.module (s.inserted e) k spec output feed) :
    ((s.complete e).module.cell k).type = spec.type ∧ ∃ name, ∀ port,
      e.signatures.isOutput ((s.complete e).module.cell k) port =
        e.signatures.isOutput (bufferCell name spec.type spec output feed) port := by
  obtain ⟨name, hshape⟩ := hc.shape
  rw [complete_cell hc.lt, hshape]
  exact ⟨rfl, name, fun port => isOutput_congr e.signatures rfl rfl port⟩

/-- Where an output is left on a net on which cells have been placed, the ports of the cell placed
last have two names, and the one counts as an output. -/
theorem two_names_of_driven (hs : s.Fresh) (hm : s.module.WellFormed)
    (ha : e.aliases = .ofConnections s.module.connections)
    (hp : (s.inserted e).placedOn? net = some p) {spec : BufferSpec} {feed : WireId}
    (hc : CellAt s.module (s.inserted e) p.cell spec net feed)
    (h : OutputAt e.signatures (s.complete e).module k port j b)
    (hnet : netOf (s.complete e).module b = netOf (s.complete e).module net) :
    spec.output ≠ spec.input ∧
      e.signatures.isOutput ((s.complete e).module.cell p.cell) spec.output = true := by
  obtain ⟨rfl, hbefore⟩ := output_before hs hm ha hp h hnet
  obtain ⟨name, hshape⟩ := hc.shape
  have hbit := hbefore.bit
  rw [hshape] at hbit
  obtain ⟨signal, hsignal, hget⟩ := Option.bind_eq_some_iff.mp hbit
  have hmem := List.mem_of_getElem? hget
  rw [bufferCell_get?] at hsignal
  split at hsignal
  · -- the input is on the wire that feeds the cell
    cases hsignal
    rw [List.mem_singleton.mp hmem] at hnet
    exact absurd hnet (netOf_feed_ne hs hm ha (mem_placed.mpr ⟨p, hp⟩) hc.feeds).2
  · rename_i hne
    split at hsignal
    · rename_i hport
      subst hport
      exact ⟨hne, h.output⟩
    · cases hsignal

theorem driven_of_two_names (hs : s.Fresh)
    (ha : e.aliases = .ofConnections s.module.connections)
    (hp : (s.inserted e).placedOn? net = some p) {spec : BufferSpec} {feed : WireId}
    (hc : CellAt s.module (s.inserted e) p.cell spec net feed) (hne : spec.output ≠ spec.input)
    (hout : e.signatures.isOutput ((s.complete e).module.cell p.cell) spec.output = true) :
    OutputAt e.signatures (s.complete e).module p.cell spec.output 0 net := by
  obtain ⟨name, hshape⟩ := hc.shape
  have hcell := complete_cell (e := e) hc.lt
  rw [hshape] at hcell
  have hout' : e.signatures.isOutput (bufferCell name spec.type spec net feed) spec.output =
      true := by
    rw [hcell] at hout
    exact hout
  have hget := get?_inserted (u := s.inserted e) (r := (s.inserted e).renamed) (k := p.cell)
    hne hout'
  rw [← hcell, movedBit_of_placed ha hp (netOf_of_placed hs ha (mem_placed.mpr ⟨p, hp⟩)),
    if_pos rfl] at hget
  refine ⟨?_, hout, ?_⟩
  · rw [length_complete_cells]
    exact hc.lt
  · unfold portBit?
    rw [hget]
    rfl

/-- A net on which cells have been placed has an output on it in the end exactly if the ports of the
cell placed last have two names and the one counts as an output. -/
theorem driven_placed_iff (hs : s.Fresh) (hm : s.module.WellFormed)
    (ha : e.aliases = .ofConnections s.module.connections)
    (hp : (s.inserted e).placedOn? net = some p) {spec : BufferSpec} {feed : WireId}
    (hc : CellAt s.module (s.inserted e) p.cell spec net feed) :
    (∃ k port j b, OutputAt e.signatures (s.complete e).module k port j b ∧
        netOf (s.complete e).module b = netOf (s.complete e).module net) ↔
      spec.output ≠ spec.input ∧
        e.signatures.isOutput ((s.complete e).module.cell p.cell) spec.output = true := by
  constructor
  · intro h
    obtain ⟨k, port, j, b, hat, hnet⟩ := h
    exact two_names_of_driven hs hm ha hp hc hat hnet
  · intro h
    obtain ⟨hne, hout⟩ := h
    exact ⟨p.cell, spec.output, 0, net, driven_of_two_names hs ha hp hc hne hout, rfl⟩

/-- An output is moved away from a net only if a cell has been placed on the net. -/
theorem placed_of_moved (ha : e.aliases = .ofConnections s.module.connections)
    (h : OutputAt e.signatures (s.inserted e).module k port j b)
    (hmoved : portBit? ((s.complete e).module.cell k) port j ≠ some b) :
    ∃ p, (s.inserted e).placedOn? (netOf s.module b) = some p := by
  rw [portBit?_moved h.lt h.output, h.bit, Option.map_some] at hmoved
  cases hp : (s.inserted e).placedOn? (netOf s.module b) with
  | some p => exact ⟨p, rfl⟩
  | none =>
    refine absurd ?_ hmoved
    have hroot : e.aliases.root b = netOf s.module b := by
      rw [ha]
      rfl
    unfold movedBit
    rw [hroot, hp]

end

/-! ## Runs -/

/-- A net of a module `m` that has become `m'` has taken a cell with the ports of a specification:
it has an output on it exactly if the ports have two names and the one counts as an output, which it
does unless a module of the design says otherwise. -/
def Retaken (d : Design) (signatures : Signatures) (m m' : Module) (spec : BufferSpec) (b : Bit) :
    Prop :=
  ∃ n, m.cells.length ≤ n ∧ (m'.cell n).type = spec.type ∧
    ((∃ k port j b', OutputAt signatures m' k port j b' ∧ netOf m' b' = netOf m' b) ↔
      spec.output ≠ spec.input ∧ signatures.isOutput (m'.cell n) spec.output = true) ∧
    (spec.output ≠ spec.input → (∀ t ∈ d.find? spec.type, Declares t spec.output .output) →
      signatures.isOutput (m'.cell n) spec.output = true)

/-- A specification that has been read gives cells that have their input on a new wire, and drive
the bit that they are given exactly if their ports have two names. In a run, whatever specifications
it has, a net that an output has been moved away from has taken an inserted cell, and is driven on
the same condition. -/
theorem parsed_drives {type ports : String} {spec : BufferSpec}
    (hspec : BufferSpec.parse type ports = .ok spec) :
    spec.type = type ∧ PortPair ports spec.output spec.input ∧
    (∀ m cellType output, Added m cellType spec output) ∧
    ∀ (o : Options) (d : Design) (p : Progress) (m : Module), d.WellFormed → run o d = .ok p →
      Visited o d m → ∃ m', p.design.find? m.name = some m' ∧
        ∀ k port j b, OutputAt (sceneOf o d m).signatures (insertedOf o d m).module k port j b →
          portBit? (m'.cell k) port j ≠ some b →
          ∃ spec ∈ o.placeable, Retaken d (sceneOf o d m).signatures m m' spec b := by
  obtain ⟨htype, hpair, -⟩ := parse_eq_ok.mp hspec
  refine ⟨htype, hpair, fun m cellType output => added m cellType spec output, ?_⟩
  intro o d p m hd h hv
  have hwell := hd.modules m hv.1
  have hs : (entryIn o d (progressBefore o d m.name) m).Fresh := fresh_entry hwell.namesUnique
  have hfind : p.design.find? m.name = some (exitOf o d m).module :=
    find?_run_visited hd.namesUnique h hv
  refine ⟨_, hfind, fun k port j b hat hmoved => ?_⟩
  obtain ⟨place, hplace⟩ := placed_of_moved (e := sceneOf o d m)
    (s := entryIn o d (progressBefore o d m.name) m) rfl hat hmoved
  have hf := fitted_inserted (e := sceneOf o d m) hs
  obtain ⟨id, i, spec, feed, -, -, hhead, hc, -⟩ :=
    hf.placed _ place (mem_of_placedOn? hplace)
  obtain ⟨htype, name, hsame⟩ := isOutput_cellAt hc
  have hiff := driven_placed_iff hs hwell rfl hplace hc
  have hroot := netOf_complete_root (e := sceneOf o d m) hs rfl b
  refine ⟨spec, mem_placeable_of_mem_parts (List.mem_of_mem_head? hhead), place.cell, hc.new,
    htype, ?_, fun hne hout => ?_⟩
  · rw [hroot] at hiff
    exact hiff
  · exact (hsame spec.output).trans (isOutput_bufferCell hd.namesUnique hne hout m name _ feed)

/-! ## A clock from within the module -/

/-- A register with a clock that another cell of the module makes. -/
def madeClock : Module :=
  { name := "top"
    wires := [{ name := "n", width := 1 }]
    cells := [({ name := "gen", type := "GEN" : Cell }.setPort "O" [.wire 0 0]).setDirection "O"
      .output, { name := "ff", type := "DFF" : Cell }.setPort "C" [.wire 0 0]] }

def buffersWith (spec : BufferSpec) : Options := { buffer := some spec }

/-- A buffer with two ports takes over the net of the clock. -/
theorem parsed_drives_two_ports :
    let d : Design := ⟨[registerType, madeClock]⟩
    BufferSpec.parse "BUFG" "O:I" = .ok ⟨"BUFG", "O", "I"⟩ ∧ PortPair "O:I" "O" "I" ∧
    ∃ p m', run (buffersWith ⟨"BUFG", "O", "I"⟩) d = .ok p ∧ p.design.find? "top" = some m' ∧
      portBit? (m'.cell 0) "O" 0 = some (.wire 1 0) ∧
      ∃ k port j b, OutputAt (sceneOf (buffersWith ⟨"BUFG", "O", "I"⟩) d madeClock).signatures m' k
        port j b ∧ netOf m' b = netOf m' (.wire 0 0) := by
  intro d
  let o := buffersWith ⟨"BUFG", "O", "I"⟩
  have hparse : BufferSpec.parse "BUFG" "O:I" = .ok ⟨"BUFG", "O", "I"⟩ := by decide
  obtain ⟨-, hpair, -, hrun⟩ := parsed_drives hparse
  obtain ⟨p, hp⟩ : ∃ p, run o d = .ok p := ⟨_, rfl⟩
  have hv : Visited o d madeClock := ⟨by decide, mem_moduleOrder (by decide) rfl, rfl⟩
  obtain ⟨m', hfind, hmoves⟩ := hrun o d p madeClock (by decide) hp hv
  have hfirst : portBit? (m'.cell 0) "O" 0 = some (.wire 1 0) := by
    have hbit : (run o d).toOption.bind (fun p => (p.design.find? "top").map fun m' =>
        portBit? (m'.cell 0) "O" 0) = some (some (.wire 1 0)) := by cbv
    rw [hp] at hbit
    obtain ⟨m'', hm'', he⟩ := Option.map_eq_some_iff.mp hbit
    cases hfind.symm.trans hm''
    exact he
  have hat : OutputAt (sceneOf o d madeClock).signatures (insertedOf o d madeClock).module 0 "O" 0
      (.wire 0 0) := ⟨by cbv, by cbv, by cbv⟩
  obtain ⟨spec, hspec, n, -, -, hiff, hout⟩ := hmoves 0 "O" 0 (.wire 0 0) hat (by
    rw [hfirst]
    decide)
  have hspec : spec = ⟨"BUFG", "O", "I"⟩ := List.mem_singleton.mp hspec
  subst hspec
  exact ⟨hparse, hpair, p, m', hp, hfind, hfirst,
    hiff.mpr ⟨by decide, hout (by decide) (by decide)⟩⟩

/-- With one name for both ports the driver of the clock is moved, and nothing is left on the
net. -/
theorem clock_lost_one_port :
    let d : Design := ⟨[registerType, madeClock]⟩
    BufferSpec.parse "BUFG" "Z" = .ok ⟨"BUFG", "Z", "Z"⟩ ∧ d.WellFormed ∧
    OutputAt (.ofDesign d) madeClock 0 "O" 0 (.wire 0 0) ∧
    ∃ p m', run (buffersWith ⟨"BUFG", "Z", "Z"⟩) d = .ok p ∧ p.design.find? "top" = some m' ∧
      portBit? (m'.cell 0) "O" 0 = some (.wire 1 0) ∧
      (m'.cell 2).ports.entries = [("Z", [.wire 1 0])] ∧
      (m'.cell 2).directions.get? "Z" = some .input ∧
      ∀ k port j b, OutputAt (.ofDesign p.design) m' k port j b →
        netOf m' b ≠ netOf m' (.wire 0 0) := by
  intro d
  let o := buffersWith ⟨"BUFG", "Z", "Z"⟩
  refine ⟨by decide, by decide, ⟨by decide, by decide, by decide⟩, ?_⟩
  have hrun : (run o d).toOption.bind (fun p => (p.design.find? "top").map fun m' =>
      (portBit? (m'.cell 0) "O" 0, (m'.cell 2).ports.entries, (m'.cell 2).directions.get? "Z",
        (drivenBits {} (.ofDesign p.design) m').map (netOf m'), netOf m' (.wire 0 0))) =
      some (some (.wire 1 0), [("Z", [.wire 1 0])], some .input, [.wire 1 0], .wire 0 0) := by cbv
  obtain ⟨p, hp⟩ : ∃ p, run o d = .ok p := ⟨_, rfl⟩
  rw [hp] at hrun
  obtain ⟨m', hm', he⟩ := Option.map_eq_some_iff.mp hrun
  simp only [Prod.mk.injEq] at he
  obtain ⟨hfirst, hports, hdirection, hdriven, hnet⟩ := he
  refine ⟨p, m', hp, hm', hfirst, hports, hdirection, fun k port j b hat => ?_⟩
  have hpin : (⟨m'.cell k, port, j, b⟩ : Pin) ∈ Pin.ofModule m' :=
    Pin.mem_ofModule_iff.mpr ⟨k, hat.lt, rfl, hat.bit⟩
  have hb : b ∈ drivenBits {} (.ofDesign p.design) m' :=
    mem_drivenBits.mpr ⟨_, hpin, List.not_mem_nil, hat.output, rfl⟩
  have hmem := List.mem_map_of_mem (f := netOf m') hb
  rw [hdriven, List.mem_singleton] at hmem
  rw [hmem, hnet]
  decide

end ClockNet.Buffering

import ClockNet.Proofs.Pins

/-! # One output drives a buffered net

Several cells may be placed on a net, one for each place at which it is driven. The one placed
last keeps the net, and all other outputs that were on it go to the wire that feeds this one's
chain (`singleOutput_complete`). So a net that wants a clock and has an eligible driver has one
output of a cell on it after a run, that of an inserted cell (`single_output`). -/

namespace ClockNet.Buffering

open Insertion
open Survey (portBit?)

/-- A place at which a net takes a cell: a bit of a wire that is considered and is an input of the
top module, or, if there is a buffer and the wire is no output port, has an output of a cell on it
that is not exempt. -/
structure EligibleDriver (o : Options) (d : Design) (m : Module) (net : Bit) (id : WireId)
    (i : Nat) : Prop where
  net : netOf m (.wire id i) = net
  considered : Considered (sceneOf o d m) m id i
  driver : ((m.wire id).isInput = true ∧ m.isTop = true) ∨
    (o.buffer.isSome ∧ (m.wire id).isOutput = false ∧
      ∃ k port j, OutputAt (sceneOf o d m).signatures m k port j (.wire id i) ∧
        (m.cell k).type ∉ o.exempt)

/-- Of the cells of the module `m'` that has become of `m`, an inserted cell `k` alone has an
output on a net, and all others that had one, in `m` or in the module `u` with the cells inserted
and no driver moved yet, are on the wire `f` that feeds it. -/
structure SingleOutput (o : Options) (signatures : Signatures) (clocked : List String)
    (m u m' : Module) (net : Bit) (k : CellId) (spec : BufferSpec) (f : WireId) : Prop where
  new : m.cells.length ≤ k
  configured : spec ∈ o.placeable
  type : (m'.cell k).type = spec.type
  port : (m'.cell k).ports.get? spec.output = some [net]
  output : OutputAt signatures m' k spec.output 0 net
  /-- No other output has a bit that was on the net. -/
  unique : ∀ k' port j b, OutputAt signatures m' k' port j b →
    (netOf m b = net ↔ k' = k ∧ port = spec.output ∧ j = 0)
  /-- Nor one that is on the net now. -/
  unique_after : ∀ k' port j b, OutputAt signatures m' k' port j b →
    (netOf m' b = netOf m' net ↔ k' = k ∧ port = spec.output ∧ j = 0)
  grown : m.Grown u
  moved : ∀ k' port j b, k' ≠ k → OutputAt signatures u k' port j b → netOf m b = net →
    portBit? (m'.cell k') port j = some (.wire f 0)
  wire : m.wires.length ≤ f ∧ f < m'.wires.length ∧ ∃ name, m'.wire f = { name, width := 1 }
  /-- The wire feeds the cell, by itself or through another inserted cell. -/
  feeds : (m'.cell k).ports.get? spec.input = some [.wire f 0] ∨
    ∃ q, m.cells.length ≤ q ∧ q < m'.cells.length ∧ ∃ pad ∈ o.placeable, ∃ g,
      (m'.cell q).type = pad.type ∧ (m'.cell k).ports.get? spec.input = some [.wire g 0] ∧
      (m'.cell q).ports.get? pad.output = some [.wire g 0] ∧
      (m'.cell q).ports.get? pad.input = some [.wire f 0]
  /-- Inputs of cells on a clock path stay. -/
  loads : ∀ k' port j b, k' < m.cells.length → (m.cell k').type ∈ clocked →
    signatures.isOutput (m.cell k') port = false → portBit? (m.cell k') port j = some b →
    portBit? (m'.cell k') port j = some b

section
variable {e : Scene} {s : Insertion} {k : CellId} {port : String} {j : Nat} {b net output : Bit}
  {p : Placement} {spec : BufferSpec} {feed : WireId}

/-- A wire that feeds a cell is on none of the nets on which cells have been placed, neither at
the start nor in the end. -/
theorem netOf_feed_ne (hs : s.Fresh) (hm : s.module.WellFormed)
    (ha : e.aliases = .ofConnections s.module.connections)
    (h : net ∈ (s.inserted e).placed.map Prod.fst) (hf : IsFeed s.module (s.inserted e) feed) :
    netOf s.module (.wire feed 0) ≠ net ∧
      netOf (s.complete e).module (.wire feed 0) ≠ netOf (s.complete e).module net := by
  have howns := owns_of_placed hs hm ha h
  refine ⟨?_, Ne.symm (netOf_complete_feed hs hm ha howns hf 0)⟩
  have hroot : netOf s.module (.wire feed 0) = .wire feed 0 := by
    have hroot := root_of_not_owns hm ha (Module.not_owns hf.new 0)
    rwa [ha] at hroot
  rw [hroot]
  rintro rfl
  exact Module.not_owns hf.new 0 howns

/-- In the end an output on a net on which cells have been placed is that of the cell placed last,
whether the net is taken as it was or as it is. -/
theorem output_on_placed (hs : s.Fresh) (hm : s.module.WellFormed)
    (ha : e.aliases = .ofConnections s.module.connections) (hd : DrivesOutputs e)
    (hp : (s.inserted e).placedOn? net = some p)
    (h : OutputAt e.signatures (s.complete e).module k port j b)
    (hnet : netOf s.module b = net ∨
      netOf (s.complete e).module b = netOf (s.complete e).module net) :
    k = p.cell ∧ b = net := by
  have hplaced := mem_placed.mpr ⟨p, hp⟩
  have howns := owns_of_placed hs hm ha hplaced
  have hroot := netOf_of_placed hs ha hplaced
  have hbefore : s.module.Owns b → netOf s.module b = net := by
    intro hb
    refine hnet.elim id fun hafter => ?_
    rw [(netOf_complete_iff hs hm ha hb howns).mp hafter, hroot]
  -- outputs of the start have left the net, and those on new wires were never on it
  rcases output_complete hs hm ha hd h with ⟨hat, -, hfree⟩ | ⟨q, hq, rfl⟩ | ⟨f, hf, rfl⟩
  · have hπ : (⟨s.module.cell k, port, j, b⟩ : Pin) ∈ Pin.ofModule s.module :=
      Pin.mem_ofModule_iff.mpr ⟨k, hat.lt, rfl, hat.bit⟩
    rw [hbefore (Pin.owns hm hπ)] at hfree
    exact absurd hplaced hfree
  · have hplaced' := mem_placed.mpr ⟨q, hq⟩
    have hb : b = net := by
      rw [← netOf_of_placed hs ha hplaced']
      exact hbefore (owns_of_placed hs hm ha hplaced')
    subst hb
    rw [hp] at hq
    cases hq
    exact ⟨rfl, rfl⟩
  · obtain ⟨hne, hne'⟩ := netOf_feed_ne hs hm ha hplaced hf
    exact absurd hnet (not_or.mpr ⟨hne, hne'⟩)

theorem get?_cellAt (hs : s.Fresh) (hm : s.module.WellFormed)
    (ha : e.aliases = .ofConnections s.module.connections) (hd : DrivesOutputs e)
    (hspec : spec ∈ e.options.placeable)
    (hc : CellAt s.module (s.inserted e) k spec output feed) :
    ((s.complete e).module.cell k).ports.get? spec.output =
        some [movedBit e (s.inserted e) k output] ∧
      ((s.complete e).module.cell k).ports.get? spec.input = some [.wire feed 0] := by
  obtain ⟨-, -, hports⟩ := complete_cellAt hs hm ha hd hspec hc
  constructor
  · refine OrderedTable.get?_of_mem ?_
    rw [hports]
    exact List.mem_cons_self
  · refine OrderedTable.get?_of_mem ?_
    rw [hports]
    exact List.mem_cons_of_mem _ List.mem_cons_self

theorem output_of_placed (hs : s.Fresh) (hm : s.module.WellFormed)
    (ha : e.aliases = .ofConnections s.module.connections) (hd : DrivesOutputs e)
    (hp : (s.inserted e).placedOn? net = some p) (hspec : spec ∈ e.options.placeable)
    (hc : CellAt s.module (s.inserted e) p.cell spec net feed) :
    ((s.complete e).module.cell p.cell).ports.get? spec.output = some [net] ∧
      OutputAt e.signatures (s.complete e).module p.cell spec.output 0 net := by
  obtain ⟨-, hout, -⟩ := complete_cellAt hs hm ha hd hspec hc
  obtain ⟨hport, -⟩ := get?_cellAt hs hm ha hd hspec hc
  rw [movedBit_of_placed ha hp (netOf_of_placed hs ha (mem_placed.mpr ⟨p, hp⟩)), if_pos rfl]
    at hport
  refine ⟨hport, ?_, hout, ?_⟩
  · rw [length_complete_cells]
    exact hc.lt
  · unfold portBit?
    rw [hport]
    rfl

/-- An output in the end is on the net, as it was or as it is, exactly if it is that one. -/
theorem on_placed_iff (hs : s.Fresh) (hm : s.module.WellFormed)
    (ha : e.aliases = .ofConnections s.module.connections) (hd : DrivesOutputs e)
    (hp : (s.inserted e).placedOn? net = some p) (hspec : spec ∈ e.options.placeable)
    (hc : CellAt s.module (s.inserted e) p.cell spec net feed)
    (h : OutputAt e.signatures (s.complete e).module k port j b) :
    (netOf s.module b = net ↔ k = p.cell ∧ port = spec.output ∧ j = 0) ∧
      (netOf (s.complete e).module b = netOf (s.complete e).module net ↔
        k = p.cell ∧ port = spec.output ∧ j = 0) := by
  have hplaced := mem_placed.mpr ⟨p, hp⟩
  have hpin : netOf s.module b = net ∨
      netOf (s.complete e).module b = netOf (s.complete e).module net →
        k = p.cell ∧ port = spec.output ∧ j = 0 := by
    intro hnet
    obtain ⟨rfl, rfl⟩ := output_on_placed hs hm ha hd hp h hnet
    -- the other pin of the cell is on the wire that feeds it
    rcases pin_of_cellAt hs hm ha hd hspec hc h.bit with ⟨hport, hj, -⟩ | ⟨-, -, rfl⟩
    · exact ⟨rfl, hport, hj⟩
    · obtain ⟨hne, hne'⟩ := netOf_feed_ne hs hm ha hplaced hc.feeds
      exact absurd hnet (not_or.mpr ⟨hne, hne'⟩)
  have hbit : k = p.cell ∧ port = spec.output ∧ j = 0 → b = net := by
    intro heq
    obtain ⟨rfl, rfl, rfl⟩ := heq
    obtain ⟨-, hat⟩ := output_of_placed hs hm ha hd hp hspec hc
    exact Option.some.inj (h.bit.symm.trans hat.bit)
  refine ⟨⟨fun hnet => hpin (.inl hnet), fun heq => ?_⟩,
    ⟨fun hnet => hpin (.inr hnet), fun heq => ?_⟩⟩
  · rw [hbit heq]
    exact netOf_of_placed hs ha hplaced
  · rw [hbit heq]

/-- The cell placed last on a net is the only one to drive it in the end. -/
theorem singleOutput_complete (hs : s.Fresh) (hm : s.module.WellFormed)
    (ha : e.aliases = .ofConnections s.module.connections) (hd : DrivesOutputs e)
    {clocked : List String} (hclocked : clocked ⊆ s.tags.clocked)
    (hp : (s.inserted e).placedOn? net = some p) :
    ∃ spec, SingleOutput e.options e.signatures clocked s.module (s.inserted e).module
      (s.complete e).module net p.cell spec p.feed := by
  have hf := fitted_inserted (e := e) hs
  have hfits := hf.placed net p (mem_of_placedOn? hp)
  have hfeed := hfits.isFeed
  obtain ⟨id, i, spec, f, -, -, hhead, hc, hchain⟩ := hfits
  have hspec := mem_placeable_of_mem_parts (List.mem_of_mem_head? hhead)
  obtain ⟨htype, -⟩ := complete_cellAt hs hm ha hd hspec hc
  obtain ⟨-, hinput⟩ := get?_cellAt hs hm ha hd hspec hc
  obtain ⟨hport, hat⟩ := output_of_placed hs hm ha hd hp hspec hc
  refine ⟨spec, hc.new, hspec, htype, hport, hat,
    fun k' port j b h => (on_placed_iff hs hm ha hd hp hspec hc h).1,
    fun k' port j b h => (on_placed_iff hs hm ha hd hp hspec hc h).2, hf.grown, ?_,
    ⟨hfeed.new, ?_, complete_wire_feed hs hfeed.new hfeed.lt hfeed.not_copy⟩, ?_, ?_⟩
  · intro k' port j b hne h hnet
    rw [portBit?_moved h.lt h.output, h.bit, Option.map_some, movedBit_of_placed ha hp hnet,
      if_neg (Ne.symm hne)]
  · rw [length_complete_wires]
    exact hfeed.lt
  · rcases hchain with rfl | ⟨q, pad, hpad, hq⟩
    · exact .inl hinput
    · have hpad' := mem_placeable_of_mem_parts hpad
      obtain ⟨hpadType, -⟩ := complete_cellAt hs hm ha hd hpad' hq
      obtain ⟨hpadOutput, hpadInput⟩ := get?_cellAt hs hm ha hd hpad' hq
      rw [movedBit_of_not_owns hs hm ha (Module.not_owns hc.feeds.new 0)] at hpadOutput
      refine .inr ⟨q, hq.new, ?_, pad, hpad', f, hpadType, hinput, hpadOutput, hpadInput⟩
      rw [length_complete_cells]
      exact hq.lt
  · intro k' port j b hk' htype' hout hbit
    rw [portBit?_clocked hs hk' hout (hclocked htype')]
    exact hbit

end

/-- A net that wants a clock has cells placed on it if it has an eligible driver. -/
theorem placed_of_eligible {o : Options} {d : Design} {m : Module} {net : Bit} {id : WireId}
    {i : Nat} (ho : o.buffer.isSome ∨ o.pad.isSome)
    (hs : (entryIn o d (progressBefore o d m.name) m).Fresh)
    (hw : (sceneOf o d m).clocks.Wanting net) (h : EligibleDriver o d m net id i) :
    net ∈ (insertedOf o d m).placed.map Prod.fst := by
  obtain ⟨rfl, hcons, hdriver⟩ := h
  refine (mem_placed_inserted hs _).mpr ⟨id, i, ?_, ?_, rfl⟩
  · refine mem_actions_drive.mpr ⟨hcons, hw, hasDriver_iff.mpr ?_⟩
    rcases hdriver with htop | ⟨-, -, k, port, j, hat, hexempt⟩
    · exact .inr (isTopInput_iff.mpr htop)
    · have hpin : (⟨m.cell k, port, j, .wire id i⟩ : Pin) ∈ Pin.ofModule m :=
        Pin.mem_ofModule_iff.mpr ⟨k, hat.lt, rfl, hat.bit⟩
      exact .inl (mem_drivenBits.mpr ⟨_, hpin, hexempt, hat.output, rfl⟩)
  · rcases hdriver with htop | ⟨hbuffer, hone, -⟩
    · exact parts_ne_nil (e := sceneOf o d m) _ ho (isTopInput_iff.mpr htop)
        (hcons.not_output htop.1)
    · intro hnil
      obtain ⟨hnone, -⟩ := (parts_eq_nil_of_one_way (e := sceneOf o d m) hone).mp hnil
      have hnone : o.buffer = none := hnone
      rw [hnone] at hbuffer
      cases hbuffer

/-- After a run a net of a visited module that wants a clock and has an eligible driver is driven
by one cell, an inserted one. Where port lists are in order, what counts as an output is the same
in the design at the start, at the visit and in the end. -/
theorem single_output {o : Options} {d : Design} {p : Progress} {m : Module} {net : Bit}
    {id : WireId} {i : Nat} (hd : d.WellFormed) (ho : ∀ spec ∈ o.placeable, spec.Sound d)
    (h : run o d = .ok p) (hv : Visited o d m) (hw : (sceneOf o d m).clocks.Wanting net)
    (he : EligibleDriver o d m net id i) :
    ∃ m', p.design.find? m.name = some m' ∧
      (∃ k spec f, SingleOutput o (sceneOf o d m).signatures
        (surveyIn (progressBefore o d m.name) m).clocked m (insertedOf o d m).module m' net k
          spec f) ∧
      (d.PortsNumbered → (sceneOf o d m).signatures = .ofDesign d ∧
        (sceneOf o d m).signatures = .ofDesign p.design) := by
  have hwell := hd.modules m hv.1
  have hs : (entryIn o d (progressBefore o d m.name) m).Fresh := fresh_entry hwell.namesUnique
  obtain ⟨hgiven, hdesign, -⟩ := run_ok h
  have hfind : p.design.find? m.name = some (exitOf o d m).module :=
    find?_run_visited hd.namesUnique h hv
  obtain ⟨place, hplace⟩ := mem_placed.mp (placed_of_eligible hgiven hs hw he)
  obtain ⟨spec, hsingle⟩ := singleOutput_complete (e := sceneOf o d m) hs hwell rfl
    (drivesOutputs_sceneOf hd.namesUnique ho m)
    (fun type htype => ((entry_tags o d (progressBefore o d m.name) m).2.2.2 type).mpr (.inr htype))
    hplace
  refine ⟨_, hfind, ⟨_, spec, _, hsingle⟩, fun hp => ?_⟩
  have hsig := signatures_sceneOf (o := o) hd.namesUnique hp m
  rw [hsig, hdesign]
  exact ⟨rfl, (ofDesign_progressAfter hd.namesUnique hp _).2.2.symm⟩

/-! ## Two drivers of one net -/

/-- A clock input that is also a wire within the module, which a cell drives as well. -/
def sharedTop : Module :=
  { name := "top"
    attributes := marked Attribute.top
    wires := [{ name := "clk", width := 1, isInput := true, position := 1 },
              { name := "n", width := 1 }]
    cells := [{ name := "ff", type := "DFF", ports := OrderedTable.empty.set "C" [.wire 1 0] },
              { name := "gen", type := "GEN", ports := OrderedTable.empty.set "O" [.wire 1 0]
                directions := SortedTable.empty.insert "O" .output }]
    connections := [([.wire 1 0], [.wire 0 0])]
    ports := [0] }

def sharedClock : Design := ⟨[registerType, bufferPrimitive, sharedTop]⟩

/-- The input gets a buffer behind a pad and the wire a buffer. One of these drives the net, and
the cell that drove it is on the wire in front. -/
theorem single_output_sharedClock : sharedClock.WellFormed ∧
    (∀ spec ∈ bufferAndPad.placeable, spec.Sound sharedClock) ∧
    EligibleDriver bufferAndPad sharedClock sharedTop (.wire 0 0) 1 0 ∧
    ∃ p m', run bufferAndPad sharedClock = .ok p ∧ p.design.find? "top" = some m' ∧
      ∃ k spec f, SingleOutput bufferAndPad (.ofDesign p.design)
          (surveyIn (progressBefore bufferAndPad sharedClock "top") sharedTop).clocked sharedTop
          (insertedOf bufferAndPad sharedClock sharedTop).module m' (.wire 0 0) k spec f ∧
        portBit? (m'.cell 1) "O" 0 = some (.wire f 0) := by
  have hd : sharedClock.WellFormed := by decide
  have ho : ∀ spec ∈ bufferAndPad.placeable, spec.Sound sharedClock := by decide
  have hnumbered : sharedClock.PortsNumbered := by decide
  have hsig := signatures_sceneOf (o := bufferAndPad) hd.namesUnique hnumbered sharedTop
  have hclocks : (sceneOf bufferAndPad sharedClock sharedTop).clocks = ⟨[.wire 0 0], []⟩ := by cbv
  have hv : Visited bufferAndPad sharedClock sharedTop := by
    refine ⟨by decide, ?_, rfl⟩
    exact mem_moduleOrder (by decide) rfl
  have hgen : OutputAt (sceneOf bufferAndPad sharedClock sharedTop).signatures sharedTop 1 "O" 0
      (.wire 1 0) := by
    refine ⟨by decide, ?_, by decide⟩
    rw [hsig]
    decide
  have he : EligibleDriver bufferAndPad sharedClock sharedTop (.wire 0 0) 1 0 :=
    ⟨by decide, ⟨by decide, by decide, rfl⟩, .inr ⟨rfl, rfl, 1, "O", 0, hgen, by decide⟩⟩
  obtain ⟨p, hp⟩ : ∃ p, run bufferAndPad sharedClock = .ok p := ⟨_, rfl⟩
  obtain ⟨m', hfind, ⟨k, spec, f, hsingle⟩, hsame⟩ := single_output hd ho hp hv
    (by rw [hclocks]; unfold Clocks.Wanting; decide) he
  rw [(hsame hnumbered).2] at hsingle hgen
  refine ⟨hd, ho, he, p, m', hp, hfind, k, spec, f, hsingle, ?_⟩
  have hcell := hsingle.grown.cell hgen.lt
  refine hsingle.moved 1 "O" 0 (.wire 1 0) (Nat.ne_of_lt hsingle.new) ⟨?_, ?_, ?_⟩ (by decide)
  · exact Nat.lt_of_lt_of_le hgen.lt hsingle.grown.cells_length
  · rw [hcell]
    exact hgen.output
  · rw [hcell]
    exact hgen.bit

end ClockNet.Buffering

import ClockNet.Proofs.Obligation

/-! # Which outputs are not buffered again

A bit of an output port is published as buffered if its net counts as buffered before anything
is inserted, which reaches through inverters, or if a cell has been placed on that very net. In
the modules above nothing is inserted on a net that such a bit drives (`not_buffered_again`). An
output behind an inverter whose input net has been given its buffer by the run itself is not
published, and may be buffered again (`buffered_again_behind_inverters`). -/

namespace ClockNet.Buffering

/-- A net that starts a chain, or lies behind one through an inverter. -/
inductive Behind (is : List Inverter) (start : Bit → Prop) : Bit → Prop where
  | here {net : Bit} (h : start net) : Behind is start net
  | inverter {i : Inverter} (hi : i ∈ is) (h : Behind is start i.input) : Behind is start i.output

/-- The inverters of a module, as they are known at its visit. -/
def invertersOf (o : Options) (d : Design) (m : Module) : List Inverter :=
  Pin.inverters (progressBefore o d m.name).tags (.ofConnections m.connections) m

/-- A bit of an output port, and of no input port, that may get a buffer. -/
structure OutputBit (o : Options) (m : Module) (id : WireId) (index : Nat) : Prop where
  place : index < (m.wire id).width
  output : (m.wire id).isOutput = true
  one_way : (m.wire id).isInput = false
  eligible : o.eligible m (m.wire id) = true

section
variable {o : Options} {d : Design} {m n : Module} {id : WireId} {i : Nat}

theorem settled_sceneOf (o : Options) (d : Design) (m : Module) : (sceneOf o d m).clocks =
    (surveyIn (progressBefore o d m.name) m).clocks.settle (invertersOf o d m) :=
  Survey.settled_survey _ _ m

/-- What lies behind a buffered net through inverters is buffered as well. -/
theorem behind_buffered_iff {net : Bit} :
    Behind (invertersOf o d m) (· ∈ (sceneOf o d m).clocks.buffered) net ↔
      net ∈ (sceneOf o d m).clocks.buffered := by
  refine ⟨?_, .here⟩
  intro h
  induction h with
  | here h => exact h
  | inverter hi _ ih =>
    rw [settled_sceneOf] at ih ⊢
    exact Clocks.closed_settle _ hi (.inl ih)

/-- Which bits of an eligible output port are published as buffered. -/
theorem tagsBuffered_iff (hd : d.NamesUnique) (hm : m ∈ d.modules) (hbox : m.isBlackbox = false)
    (hout : OutputBit o m id i) : TagsBuffered o d m ⟨m.name, (m.wire id).name, i⟩ ↔
      netOf m (.wire id i) ∈ (sceneOf o d m).clocks.buffered ∨
      netOf m (.wire id i) ∈ (insertedOf o d m).placed.map Prod.fst := by
  unfold TagsBuffered
  simp only [hbox, Bool.false_eq_true, if_false]
  constructor
  · intro hex
    obtain ⟨id', i', hpub, he⟩ := hex
    obtain ⟨-, hname, rfl⟩ := PortBit.mk.inj he
    have hplace : i < (m.wire id').width := by
      rcases hpub with hpub | hpub
      · exact (mem_actions_publishBuffered.mp hpub).1
      · exact hpub.1
    have hid : id = id' := Module.wire_inj_of_name (hd.modules m hm).wires
      (Module.lt_of_place hout.place) (Module.lt_of_place hplace) hname
    subst hid
    rcases hpub with hpub | hpub
    · exact .inl ((mem_actions_publishBuffered.mp hpub).2.2.2 hout.eligible)
    · exact .inr hpub.2.2
  · intro h
    refine ⟨id, i, ?_, rfl⟩
    rcases h with h | h
    · exact .inl (mem_actions_publishBuffered.mpr
        ⟨hout.place, hout.output, hout.one_way, fun _ => h⟩)
    · refine .inr ⟨hout.place, ?_, h⟩
      have helig := hout.eligible
      have hoptions : (sceneOf o d m).options = o := rfl
      unfold Options.eligible at helig
      unfold Insertion.retags
      rw [hout.one_way, hout.output, hoptions]
      cases hsel : o.selection with
      | none => rfl
      | some s =>
        rw [hsel] at helig
        exact helig

theorem mem_of_mem_handedSignal {e : Scene} {s : Insertion} (hs : s.Fresh) {k : CellId} {c : Cell}
    {port : String} {signal : Signal} {b : Bit} (h : b ∈ Insertion.handedSignal e (s.inserted e)
      (s.inserted e).renamed k c port signal) (hown : s.module.Owns b) : b ∈ signal := by
  have hf := Insertion.fitted_inserted (e := e) hs
  unfold Insertion.handedSignal at h
  split at h
  · obtain ⟨x, hx, rfl⟩ := List.mem_map.mp h
    unfold Insertion.movedBit at hown ⊢
    split at hown
    · rename_i p hp
      split at hown
      · rename_i hcell
        rw [if_pos hcell]
        exact hx
      · have hfeed := (hf.placed _ p (mem_of_placedOn? hp)).isFeed
        exact absurd hown (Module.not_owns hfeed.new 0)
    · exact hx
  · split at h
    · obtain ⟨j, hj⟩ := List.mem_iff_getElem?.mp h
      obtain ⟨x, hx, hrestored⟩ := forall₂_getElem?
        (Insertion.forall₂_restoredSignal (Insertion.widths_renamed hs) signal).flip hj
      rcases hrestored with rfl | ⟨q, hq, r, -, -, rfl⟩
      · exact List.mem_of_getElem? hx
      · exact absurd hown (Module.not_owns (hf.replaced q hq).2.1 r)
    · exact h

/-- A bit of an inserted cell that the module had before is on a net that wanted a clock. -/
theorem wanting_of_inserted {e : Scene} {s : Insertion} (hs : s.Fresh)
    (ha : e.aliases = .ofConnections s.module.connections) {k : CellId}
    (hk : s.module.cells.length ≤ k) (hlt : k < (s.complete e).module.cells.length)
    {port : String} {j : Nat} {b : Bit}
    (hb : Survey.portBit? ((s.complete e).module.cell k) port j = some b)
    (hown : s.module.Owns b) : e.clocks.Wanting (e.aliases.root b) := by
  have hf := Insertion.fitted_inserted (e := e) hs
  rw [Insertion.length_complete_cells] at hlt
  obtain ⟨id, i, spec, output, feed, hdrive, -, hc, hout⟩ := hf.cells k hk hlt
  obtain ⟨name, hshape⟩ := hc.shape
  rw [Insertion.complete_cell hlt, hshape, portBit?_handedCell] at hb
  obtain ⟨signal, hsignal, hbit⟩ := Option.bind_eq_some_iff.mp hb
  obtain ⟨before, hbefore, rfl⟩ := Option.map_eq_some_iff.mp hsignal
  have hsame := mem_of_mem_handedSignal hs (List.mem_of_getElem? hbit) hown
  rcases mem_bufferCell_ports (OrderedTable.mem_of_get? hbefore) with he | he
  · obtain ⟨-, rfl⟩ := Prod.mk.inj he
    rw [List.mem_singleton.mp hsame] at hown ⊢
    rcases hout with ⟨rfl, -⟩ | ⟨f, hfeed, rfl⟩
    · rw [ha, (AliasMap.settled_ofConnections _).root_root, ← ha]
      exact (mem_actions_drive.mp hdrive).2.1
    · exact absurd hown (Module.not_owns hfeed.new 0)
  · obtain ⟨-, rfl⟩ := Prod.mk.inj he
    rw [List.mem_singleton.mp hsame] at hown
    exact absurd hown (Module.not_owns hc.feeds.new 0)

/-- A bit of an eligible output port is published as buffered exactly if its net counts as
buffered before insertion, be it through inverters, or a cell has been placed on that net. If it
is, no cell that the run inserts into a module above is on a net of an instance's bit. -/
theorem not_buffered_again {p : Progress} (hd : d.NamesUnique) (ha : d.Acyclic)
    (h : run o d = .ok p) (hm : m ∈ d.modules) (hbox : m.isBlackbox = false)
    (hout : OutputBit o m id i) :
    (TagsBuffered o d m ⟨m.name, (m.wire id).name, i⟩ ↔
      Behind (invertersOf o d m) (· ∈ (sceneOf o d m).clocks.buffered) (netOf m (.wire id i)) ∨
      netOf m (.wire id i) ∈ (insertedOf o d m).placed.map Prod.fst) ∧
    (TagsBuffered o d m ⟨m.name, (m.wire id).name, i⟩ →
      ∀ n ∈ d.modules, ∀ π ∈ Pin.ofModule n, π.portBit = ⟨m.name, (m.wire id).name, i⟩ →
      ∃ n', p.design.find? n.name = some n' ∧
      ∀ k, n.cells.length ≤ k → k < n'.cells.length →
      ∀ port j b, Survey.portBit? (n'.cell k) port j = some b → n.Owns b →
        netOf n b ≠ netOf n π.bit) := by
  refine ⟨?_, ?_⟩
  · rw [behind_buffered_iff]
    exact tagsBuffered_iff hd hm hbox hout
  · intro htag n hn π hπ hport
    rcases find?_run hd h hn with ⟨hv, hf⟩ | ⟨-, hf⟩
    · refine ⟨_, hf, ?_⟩
      intro k hk hlt port j b hb hown heq
      have htype : π.cell.type = m.name := congrArg PortBit.type hport
      have hbefore := visitedBefore_of_pin ha (Design.find?_name hd.names hn) hv.2.1 hπ
        (htype ▸ Design.find?_name hd.names hm)
      have hbuffered : netOf n π.bit ∈ (sceneOf o d n).clocks.buffered := by
        refine buffered_of_tagged hπ ?_
        refine (mem_buffered_progressBefore hd).mpr (.inr ⟨hbefore, m, ?_, ?_⟩)
        · rw [hport]
          exact Design.find?_name hd.names hm
        · rw [hport]
          exact htag
      have hwants := wanting_of_inserted (e := sceneOf o d n)
        (fresh_entryOf hd hn (progressBefore o d n.name)) rfl hk hlt hb hown
      refine hwants.2 ?_
      rw [show (sceneOf o d n).aliases.root b = netOf n b from rfl, heq]
      exact hbuffered
    · refine ⟨n, hf, ?_⟩
      intro k hk hlt
      exact absurd hlt (Nat.not_lt.mpr hk)

end

/-! ## Clocks that come out of a module -/

def generatorType : Module :=
  { name := "GEN"
    attributes := marked Attribute.blackbox
    wires := [{ name := "O", width := 1, isOutput := true, position := 1 }]
    ports := [0] }

def inverterType : Module :=
  { name := "INV"
    attributes := marked Attribute.blackbox
    wires := [{ name := "O", width := 1, isOutput := true, position := 1,
                attributes := SortedTable.empty.insert Attribute.inverts (.text "I") },
              { name := "I", width := 1, isInput := true, position := 2 }]
    ports := [0, 1] }

/-- A clock that drives a register and an output. -/
def clockSource : Module :=
  { name := "source"
    wires := [{ name := "n", width := 1 },
              { name := "q", width := 1, isOutput := true, position := 1 }]
    cells := [{ name := "g", type := "GEN", ports := OrderedTable.empty.set "O" [.wire 0 0] },
              { name := "ff", type := "DFF", ports := OrderedTable.empty.set "C" [.wire 0 0] }]
    connections := [([.wire 1 0], [.wire 0 0])]
    ports := [1] }

/-- A clock that drives a register and, through two inverters, an output. -/
def invertedSource : Module :=
  { name := "source"
    wires := [{ name := "n", width := 1 }, { name := "x", width := 1 },
              { name := "q", width := 1, isOutput := true, position := 1 }]
    cells := [{ name := "g", type := "GEN", ports := OrderedTable.empty.set "O" [.wire 0 0] },
              { name := "ff", type := "DFF", ports := OrderedTable.empty.set "C" [.wire 0 0] },
              { name := "i1", type := "INV", ports :=
                  (OrderedTable.empty.set "I" [.wire 0 0]).set "O" [.wire 1 0] },
              { name := "i2", type := "INV", ports :=
                  (OrderedTable.empty.set "I" [.wire 1 0]).set "O" [.wire 2 0] }]
    ports := [2] }

/-- A register on the output of such a module. -/
def sourcedTop : Module :=
  { name := "top"
    attributes := marked Attribute.top
    wires := [{ name := "c", width := 1 }]
    cells := [{ name := "u", type := "source", ports := OrderedTable.empty.set "q" [.wire 0 0] },
              { name := "ff", type := "DFF", ports := OrderedTable.empty.set "C" [.wire 0 0] }] }

def sourcedDesign : Design := ⟨[registerType, generatorType, clockSource, sourcedTop]⟩

def invertedDesign : Design :=
  ⟨[registerType, generatorType, inverterType, invertedSource, sourcedTop]⟩

/-- In both designs the top is above the source, and the source above the primitives. -/
def sourceRank (name : String) : Nat :=
  if name = "top" then 2 else if name = "source" then 1 else 0

/-- The output of a module whose own clock gets a buffer is not buffered again above. -/
theorem not_buffered_again_source :
    TagsBuffered bufferOnly sourcedDesign clockSource ⟨"source", "q", 0⟩ ∧
    ∃ p n', run bufferOnly sourcedDesign = .ok p ∧ p.design.find? "top" = some n' ∧
      ∀ k, 2 ≤ k → k < n'.cells.length →
      ∀ port j b, Survey.portBit? (n'.cell k) port j = some b → sourcedTop.Owns b →
        netOf sourcedTop b ≠ .wire 0 0 := by
  have hd : sourcedDesign.WellFormed := by decide
  have ha : sourcedDesign.Acyclic := Design.acyclic_of_rank sourceRank (by decide)
  obtain ⟨p, hp⟩ : ∃ p, run bufferOnly sourcedDesign = .ok p := ⟨_, rfl⟩
  have hout : OutputBit bufferOnly clockSource 1 0 := ⟨by decide, rfl, rfl, by decide⟩
  obtain ⟨htag, hnone⟩ := not_buffered_again hd.namesUnique ha hp
    (show clockSource ∈ sourcedDesign.modules by decide) rfl hout
  have hplaced : (insertedOf bufferOnly sourcedDesign clockSource).placed.map Prod.fst =
      [.wire 0 0] := by cbv
  have hyes : TagsBuffered bufferOnly sourcedDesign clockSource ⟨"source", "q", 0⟩ := by
    refine htag.mpr (.inr ?_)
    rw [hplaced]
    exact List.mem_cons_self
  obtain ⟨n', hf, hall⟩ := hnone hyes sourcedTop (by decide)
    ⟨sourcedTop.cell 0, "q", 0, .wire 0 0⟩ (Pin.mem_ofModule.mpr ⟨by decide, by decide⟩) rfl
  exact ⟨hyes, p, n', hp, hf, hall⟩

/-- An output behind two inverters is fed by the buffer that its module has been given, and is
buffered again above. -/
theorem buffered_again_behind_inverters :
    invertedDesign.WellFormed ∧ invertedDesign.Acyclic ∧
    (∀ m ∈ invertedDesign.modules, m.isBlackbox = false →
      SingleDriver (.ofDesign invertedDesign) m) ∧
    OutputBit bufferOnly invertedSource 2 0 ∧
    Behind (invertersOf bufferOnly invertedDesign invertedSource)
      (fun net => net ∈ (sceneOf bufferOnly invertedDesign invertedSource).clocks.buffered ∨
        net ∈ (insertedOf bufferOnly invertedDesign invertedSource).placed.map Prod.fst)
      (netOf invertedSource (.wire 2 0)) ∧
    ∃ p n', run bufferOnly invertedDesign = .ok p ∧ p.design.find? "top" = some n' ∧
      n'.cells.length = 3 ∧
      (n'.cell 2).ports.get? "O" = some [netOf sourcedTop (.wire 0 0)] := by
  have hplaced : (insertedOf bufferOnly invertedDesign invertedSource).placed.map Prod.fst =
      [.wire 0 0] := by cbv
  have hinverters : invertersOf bufferOnly invertedDesign invertedSource =
      [⟨.wire 1 0, .wire 0 0⟩, ⟨.wire 2 0, .wire 1 0⟩] := by cbv
  refine ⟨by decide, Design.acyclic_of_rank sourceRank (by decide), by decide,
    ⟨by decide, rfl, rfl, by decide⟩, ?_, ?_⟩
  · rw [hplaced, hinverters]
    refine .inverter (i := ⟨.wire 2 0, .wire 1 0⟩) (by decide) ?_
    refine .inverter (i := ⟨.wire 1 0, .wire 0 0⟩) (by decide) ?_
    exact .here (.inr List.mem_cons_self)
  · obtain ⟨p, hp⟩ : ∃ p, run bufferOnly invertedDesign = .ok p := ⟨_, rfl⟩
    have hend : ((run bufferOnly invertedDesign).toOption.bind fun p =>
        (p.design.find? "top").map fun n =>
          (n.cells.length, (n.cell 2).ports.get? "O")) = some (3, some [.wire 0 0]) := by cbv
    rw [hp] at hend
    obtain ⟨n', hf, he⟩ := Option.map_eq_some_iff.mp hend
    obtain ⟨hlen, hport⟩ := Prod.mk.inj he
    exact ⟨p, n', hp, hf, hlen, hport⟩

end ClockNet.Buffering

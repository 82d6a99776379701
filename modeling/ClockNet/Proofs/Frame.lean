import ClockNet.Proofs.Accounting
import ClockNet.Proofs.PortIdentity

/-! # What a run leaves in place

Whatever a run inserts, it inserts behind what was there: a module keeps its cells, up to the bits
on their ports, its connections, and its wires, but for the input ports that have handed their role
over to another wire (`Frame`). The numbers that a run reports are the cells, wires and handed-over
ports of all modules together, and a module without a net in need of a buffer is not touched
(`run_frame`). -/

namespace ClockNet.Buffering

open Insertion

/-- A cell is the one that it was but for the bits on its ports. -/
structure CellFrame (c c' : Cell) : Prop where
  name : c'.name = c.name
  type : c'.type = c.type
  parameters : c'.parameters = c.parameters
  attributes : c'.attributes = c.attributes
  directions : c'.directions = c.directions
  ports : c'.ports.entries.map (fun p => (p.1, p.2.length)) =
    c.ports.entries.map fun p => (p.1, p.2.length)

/-- The inputs of a module that are no inputs of another one any more. -/
def clonedInputs (m m' : Module) : List WireId :=
  m.wireIds.filter fun id => (m.wire id).isInput && !(m'.wire id).isInput

/-- What a module was is still there in another one, in its place. -/
structure Frame (m m' : Module) : Prop where
  name : m'.name = m.name
  attributes : m'.attributes = m.attributes
  cells : ∃ old new, m'.cells = old ++ new ∧ List.Forall₂ CellFrame m.cells old
  connections : m.connections <+: m'.connections
  wires_length : m.wires.length ≤ m'.wires.length
  /-- Wires are the same, up to what a port hands over. -/
  shape : ∀ id < m.wires.length, (m'.wire id).width = (m.wire id).width ∧
    (m'.wire id).offset = (m.wire id).offset ∧ (m'.wire id).upto = (m.wire id).upto ∧
    (m'.wire id).signed = (m.wire id).signed
  kept : ∀ id < m.wires.length, id ∉ clonedInputs m m' → m'.wire id = m.wire id
  /-- What a port hands over, it hands over to a new wire. -/
  cloned : ∀ id ∈ clonedInputs m m', ∃ new, m.wires.length ≤ new ∧ new < m'.wires.length ∧
    m'.wire new = m.wire id
  /-- A new wire feeds a new cell or stands for a port. -/
  gained : m'.wires.length + m.cells.length =
    m.wires.length + (m'.cells.length + (clonedInputs m m').length)

theorem CellFrame.refl (c : Cell) : CellFrame c c := ⟨rfl, rfl, rfl, rfl, rfl, rfl⟩

theorem mem_clonedInputs {m m' : Module} {id : WireId} : id ∈ clonedInputs m m' ↔
    id < m.wires.length ∧ (m.wire id).isInput = true ∧ (m'.wire id).isInput = false := by
  unfold clonedInputs Module.wireIds
  rw [List.mem_filter, List.mem_range, Bool.and_eq_true, Bool.not_eq_true']

theorem clonedInputs_self (m : Module) : clonedInputs m m = [] :=
  List.filter_eq_nil_iff.mpr fun id _ => by simp

theorem Frame.refl (m : Module) : Frame m m := by
  refine ⟨rfl, rfl, ⟨m.cells, [], (List.append_nil _).symm, ?_⟩, List.prefix_rfl, Nat.le_refl _,
    fun _ _ => ⟨rfl, rfl, rfl, rfl⟩, fun _ _ _ => rfl, ?_, ?_⟩
  · exact List.forall₂_same.mpr fun c _ => CellFrame.refl c
  · rw [clonedInputs_self]
    intro id hid
    cases hid
  · rw [clonedInputs_self]
    rfl

/-! ## A visit -/

section Visit
variable {e : Scene} {s : Insertion}

theorem length_handedSignal (hs : s.Fresh) (k : CellId) (c : Cell) (port : String)
    (signal : Signal) :
    (handedSignal e (s.inserted e) (s.inserted e).renamed k c port signal).length =
      signal.length := by
  unfold handedSignal
  split
  · exact List.length_map _
  · split
    · exact (forall₂_restoredSignal (widths_renamed hs) signal).length_eq.symm
    · rfl

theorem cellFrame_handed (hs : s.Fresh) (k : CellId) (c : Cell) :
    CellFrame c (handedCell e (s.inserted e) (s.inserted e).renamed k c) := by
  refine ⟨rfl, rfl, rfl, rfl, rfl, ?_⟩
  unfold handedCell OrderedTable.mapValues
  rw [List.map_map]
  refine List.map_congr_left ?_
  intro p _
  rw [Function.comp_apply, length_handedSignal hs]

theorem cells_complete (hs : s.Fresh) : ∃ old new, (s.complete e).module.cells = old ++ new ∧
    List.Forall₂ CellFrame s.module.cells old := by
  obtain ⟨new, hnew⟩ := (fitted_inserted (e := e) hs).grown.cells
  rw [complete_module]
  dsimp only
  rw [← hnew, List.mapIdx_append]
  refine ⟨_, _, rfl, List.forall₂_iff_get.mpr ⟨List.length_mapIdx.symm, ?_⟩⟩
  intro i hi hi'
  rw [List.get_eq_getElem, List.get_eq_getElem, List.getElem_mapIdx]
  exact cellFrame_handed hs i _

theorem wire_standIn (hs : s.Fresh) (hp : s.module.PortsNumbered) {id : WireId}
    (hid : id < s.module.wires.length) :
    (s.complete e).module.wire ((s.inserted e).standIn id) = s.module.wire id := by
  have hlt := standIn_lt (e := e) hs hid
  have hw := complete_wire_standIn (e := e) hs hid
  have hname := congrArg Wire.name hw
  have hport : ((s.complete e).module.wire ((s.inserted e).standIn id)).isPort =
      (s.module.wire id).isPort := by rw [hw]; rfl
  cases hrole : (s.module.wire id).isPort with
  | true =>
    -- the port list has the wire under its old position, and names are unique
    have hmem : s.module.wire id ∈ (s.complete e).module.ports.map (s.complete e).module.wire := by
      rw [ports_complete hs hp]
      exact List.mem_map_of_mem (hp.mem.mpr hrole)
    obtain ⟨j, hj, he⟩ := List.mem_map.mp hmem
    have hjlt := (Module.portsNumbered_iff.mp (portsNumbered_complete (e := e) (s := s))).2.1 j hj
    have hsame := Module.wire_inj_of_name (namesUnique_complete (e := e) hs).wires hjlt hlt
      (he ▸ hname.symm)
    rwa [← hsame]
  | false =>
    have hold := (Module.portsNumbered_iff.mp hp).2.2 id hid
    have hnew := (Module.portsNumbered_iff.mp (portsNumbered_complete (e := e) (s := s))).2.2 _ hlt
    rw [hport, hrole] at hnew
    rw [hrole] at hold
    rw [hw, hnew.2]
    exact congrArg (fun p => { s.module.wire id with position := p }) hold.2.symm

theorem clonedInputs_complete (hs : s.Fresh) (id : WireId) :
    id ∈ clonedInputs s.module (s.complete e).module ↔
      id ∈ (s.inserted e).replaced.map Prod.fst := by
  rw [mem_clonedInputs]
  constructor
  · intro h
    obtain ⟨hid, hin, hout⟩ := h
    by_contra hmem
    have hw := complete_wire_kept (e := e) hs hid fun hr =>
      hmem ((mem_replaced_inserted hs id).mpr hr)
    rw [hw, hin] at hout
    cases hout
  · intro h
    obtain ⟨q, hq, rfl⟩ := List.mem_map.mp h
    have hreplace := (mem_replaced_inserted hs q.1).mp h
    rw [complete_wire_port hs hq]
    exact ⟨lt_of_mem_replaced hs hq, (mem_actions_replace.mp hreplace).1, rfl⟩

theorem length_clonedInputs_complete (hs : s.Fresh) :
    (clonedInputs s.module (s.complete e).module).length = (s.inserted e).replaced.length := by
  have hnodup : (clonedInputs s.module (s.complete e).module).Nodup :=
    List.nodup_range.filter _
  rw [← List.length_map Prod.fst]
  exact ((List.perm_ext_iff_of_nodup hnodup (exchange_inserted hs).fst_nodup).mpr
    (clonedInputs_complete hs)).length_eq

theorem wire_of_not_cloned (hs : s.Fresh) (hp : s.module.PortsNumbered) {id : WireId}
    (hid : id < s.module.wires.length)
    (hout : id ∉ clonedInputs s.module (s.complete e).module) :
    (s.complete e).module.wire id = s.module.wire id := by
  rw [clonedInputs_complete hs] at hout
  rcases standIn_cases (s.inserted e) id with hmem | ⟨-, he⟩
  · exact absurd (List.mem_map_of_mem hmem) hout
  · have hw := wire_standIn (e := e) hs hp hid
    rwa [he] at hw

theorem frame_complete (hs : s.Fresh) (hp : s.module.PortsNumbered) :
    Frame s.module (s.complete e).module := by
  have hf := fitted_inserted (e := e) hs
  refine ⟨complete_name hs, complete_attributes hs, cells_complete hs, ?_, ?_, ?_,
    fun id hid => wire_of_not_cloned hs hp hid, ?_, ?_⟩
  · rw [complete_connections]
    exact hf.grown.connections
  · rw [length_complete_wires]
    exact hf.grown.wires_length
  · intro id hid
    by_cases hmem : id ∈ clonedInputs s.module (s.complete e).module
    · obtain ⟨q, hq, rfl⟩ := List.mem_map.mp ((clonedInputs_complete hs id).mp hmem)
      rw [complete_wire_port hs hq]
      exact ⟨rfl, rfl, rfl, rfl⟩
    · rw [wire_of_not_cloned hs hp hid hmem]
      exact ⟨rfl, rfl, rfl, rfl⟩
  · intro id hmem
    obtain ⟨q, hq, rfl⟩ := List.mem_map.mp ((clonedInputs_complete hs id).mp hmem)
    obtain ⟨-, hge, hlt, -⟩ := hf.replaced q hq
    have hw := wire_standIn (e := e) hs hp (lt_of_mem_replaced hs hq)
    rw [standIn_of_mem hs hq] at hw
    exact ⟨q.2, hge, by rwa [length_complete_wires], hw⟩
  · obtain ⟨hcells, hwires, -⟩ := accounts_inserted e s
    have hnone : s.replaced.length = 0 := by rw [hs.replaced]; rfl
    rw [length_complete_cells, length_complete_wires, length_clonedInputs_complete hs]
    omega

/-- Where every net that needs a buffer has one, nothing is done but publishing. -/
theorem quiet_of_buffered (h : ∀ net ∈ e.clocks.sinks, net ∈ e.clocks.buffered) (m : Module) :
    Quiet e m := by
  intro id i hdrive
  obtain ⟨-, hwanting, -⟩ := mem_actions_drive.mp hdrive
  exact absurd (h _ hwanting.1) hwanting.2

end Visit

/-! ## A run -/

/-- The inputs, over all modules, that have handed over their role. -/
def cloneCount (d d' : Design) : Nat :=
  (List.zipWith (fun m m' => (clonedInputs m m').length) d.modules d'.modules).sum

/-- In designs that differ as a frame allows, the wires gained are those of the cells gained and the
clones of inputs. -/
theorem wireCount_of_frames {d d' : Design} (h : List.Forall₂ Frame d.modules d'.modules) :
    d'.wireCount + d.cellCount = d.wireCount + (d'.cellCount + cloneCount d d') := by
  obtain ⟨modules⟩ := d
  obtain ⟨modules'⟩ := d'
  unfold Design.wireCount Design.cellCount cloneCount
  dsimp only at h ⊢
  induction h with
  | nil => rfl
  | cons hframe _ ih =>
    have hgained := hframe.gained
    simp only [List.map_cons, List.zipWith_cons_cons, List.sum_cons]
    omega

section
variable {o : Options} {d : Design}

theorem frame_resultOf (hd : d.NamesUnique) {m : Module} (hm : m ∈ d.modules)
    (hp : m.PortsNumbered) : Frame m (resultOf o d m) := by
  unfold resultOf
  split
  · exact frame_complete (e := sceneOf o d m) (fresh_entryOf hd hm _) hp
  · exact Frame.refl m

theorem resultOf_of_buffered (hd : d.NamesUnique) {m : Module} (hm : m ∈ d.modules)
    (hp : m.PortsNumbered)
    (h : ∀ net ∈ (sceneOf o d m).clocks.sinks, net ∈ (sceneOf o d m).clocks.buffered) :
    resultOf o d m = m := by
  unfold resultOf
  split
  · exact (complete_of_quiet (e := sceneOf o d m) (fresh_entryOf hd hm _) hp
      (quiet_of_buffered h m)).1
  · rfl

/-- A run leaves the modules, their order and what was in them in place; it counts what it has
added; and it does not touch a module in which every net that needs a buffer has one. -/
theorem run_frame (hd : d.NamesUnique) (hp : d.PortsNumbered) {p : Progress}
    (h : run o d = .ok p) :
    List.Forall₂ Frame d.modules p.design.modules ∧
    p.design.cellCount = d.cellCount + (p.stats.buffers + p.stats.pads) ∧
    cloneCount d p.design = p.stats.renamedPorts ∧
    p.design.wireCount =
      d.wireCount + (p.stats.buffers + p.stats.pads + p.stats.renamedPorts) ∧
    ∀ m ∈ d.modules,
      (∀ net ∈ (sceneOf o d m).clocks.sinks, net ∈ (sceneOf o d m).clocks.buffered) →
      p.design.find? m.name = some m := by
  obtain ⟨-, hdesign, -, hstats⟩ := run_ok h
  have hend : p.design = endOf o d := hdesign
  obtain ⟨hcells, hwires⟩ := balance_progressAfter (o := o) hd hp (moduleOrder d o.selection)
  rw [← hdesign, ← hstats] at hcells hwires
  have hframes : List.Forall₂ Frame d.modules p.design.modules := by
    rw [hend, modules_endOf hd, List.forall₂_map_right_iff, List.forall₂_same]
    intro m hm
    exact frame_resultOf hd hm (hp m hm)
  have hcells' : p.design.cellCount + 0 = d.cellCount + (p.stats.buffers + p.stats.pads) := hcells
  have hwires' : p.design.wireCount + 0 =
      d.wireCount + (p.stats.buffers + p.stats.pads + p.stats.renamedPorts) := hwires
  have hsum := wireCount_of_frames hframes
  refine ⟨hframes, hcells', by omega, hwires', ?_⟩
  intro m hm hbuffered
  rw [hend, find?_resultOf hd hm, resultOf_of_buffered hd hm (hp m hm) hbuffered]

end

/-- A register whose clock comes from a buffer. -/
def bufferedLeaf : Module :=
  { name := "leaf"
    wires := [{ name := "clk", width := 1, isInput := true, position := 1 },
              { name := "ck", width := 1 }]
    cells := [bufferCell "buffer" "BUFG" ⟨"BUFG", "O", "I"⟩ (.wire 1 0) 0,
              { name := "ff", type := "DFF", ports := OrderedTable.empty.set "C" [.wire 1 0] }]
    ports := [0]
    nextNumber := 5 }

/-- Two clock inputs get a buffer and a pad each and hand their roles over; the register that has
its buffer already is left alone. -/
theorem run_frame_twoClocks : ∃ p,
    run bufferAndPad ⟨[registerType, bufferedLeaf, twoClocks]⟩ = .ok p ∧
    p.design.cellCount = 4 + 4 ∧
    cloneCount ⟨[registerType, bufferedLeaf, twoClocks]⟩ p.design = 2 ∧
    p.design.wireCount = 6 + (4 + 2) ∧ p.design.find? "leaf" = some bufferedLeaf ∧
    List.Forall₂ Frame [registerType, bufferedLeaf, twoClocks] p.design.modules := by
  let d : Design := ⟨[registerType, bufferedLeaf, twoClocks]⟩
  obtain ⟨p, hrun⟩ := run_total (o := bufferAndPad) (d := d) (.inl rfl)
  have hnames : d.NamesUnique := Design.WellFormed.namesUnique (by decide)
  obtain ⟨hframes, hcells, hclones, hwires, hkept⟩ := run_frame hnames (by decide) hrun
  have hcounts : ((run bufferAndPad d).toOption.map fun p =>
      (p.stats.buffers, p.stats.pads, p.stats.renamedPorts)) = some (2, 2, 2) := by cbv
  have hclocks : (sceneOf bufferAndPad d bufferedLeaf).clocks =
      { sinks := [.wire 1 0], buffered := [.wire 1 0] } := by cbv
  rw [hrun] at hcounts
  obtain ⟨hb, hrest⟩ := Prod.mk.inj (Option.some.inj hcounts)
  obtain ⟨hp, hr⟩ := Prod.mk.inj hrest
  rw [hb, hp] at hcells
  rw [hr] at hclones
  rw [hb, hp, hr] at hwires
  refine ⟨p, hrun, hcells, hclones, hwires, ?_, hframes⟩
  refine hkept bufferedLeaf (by simp [d]) ?_
  rw [hclocks]
  exact fun _ hnet => hnet

end ClockNet.Buffering

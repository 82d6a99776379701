import ClockNet.Proofs.Pins

/-! # Clock obligations reach the top

A bit from which a chain leads down to a sink, through aliases within modules and through ports
between them, obliges every module on the chain to give it a clock (`Obliged`). Instances are
visited first, so each module finds the need of its instances published (`sinks_of_obliged`, by
induction on the chain), and where the chain starts at an input of the top module a cell is put
behind that input (`obligation_met`). That takes a cell type that drives, and a top module that is
no black box (`obligation_unmet`). -/

namespace ClockNet.Buffering

/-- A bit of an input port, and of no output port, that buffers are not kept off. -/
structure InputBit (m : Module) (id : WireId) (index : Nat) : Prop where
  place : index < (m.wire id).width
  input : (m.wire id).isInput = true
  one_way : (m.wire id).isOutput = false
  free : (m.wire id).attributes.flag Attribute.inhibit = false

/-- A chain leads from a bit of a module down to a sink. It goes on from any pin on the net of
the bit, and ends there if the port is a sink of a black box. Otherwise the pin is an instance of
a module with contents that is not the top; its bit of the port is not driven in there, and the
chain goes on from it. No net on the chain counts as buffered. -/
inductive Obliged (o : Options) (d : Design) : Module → Bit → Prop where
  | sink {m t : Module} {b : Bit} {π : Pin}
      (hfree : netOf m b ∉ (sceneOf o d m).clocks.buffered)
      (hπ : π ∈ Pin.ofModule m) (hnet : netOf m π.bit = netOf m b)
      (ht : d.find? π.cell.type = some t) (hbox : t.isBlackbox = true)
      (hsink : Tags.Marked t Attribute.sink π.portBit) : Obliged o d m b
  | port {m t : Module} {b : Bit} {π : Pin} {id : WireId}
      (hfree : netOf m b ∉ (sceneOf o d m).clocks.buffered)
      (hπ : π ∈ Pin.ofModule m) (hnet : netOf m π.bit = netOf m b)
      (ht : d.find? π.cell.type = some t) (hbox : t.isBlackbox = false)
      (htop : t.isTop = false) (hname : (t.wire id).name = π.port)
      (hinput : InputBit t id π.index)
      (hdriven : Bit.wire id π.index ∉ drivenBits o (.ofDesign d) t)
      (hrest : Obliged o d t (.wire id π.index)) : Obliged o d m b

/-- A cell type whose output, once it is inserted, stays on the net: the output is not the input
as well, and where the type is a module of the design and not that of the buffer, the module has it
as an output. -/
structure BufferSpec.Drives (o : Options) (d : Design) (spec : BufferSpec) : Prop where
  distinct : spec.output ≠ spec.input
  output : o.buffer.map (·.type) ≠ some spec.type → ∀ t ∈ d.find? spec.type,
    ((Signatures.ofModule t).find? (·.1 == spec.output)).any (·.2.isOutput) = true

instance (o : Options) (d : Design) (spec : BufferSpec) : Decidable (spec.Drives o d) :=
  decidable_of_iff (spec.output ≠ spec.input ∧ (o.buffer.map (·.type) ≠ some spec.type →
      ∀ t ∈ d.find? spec.type,
        ((Signatures.ofModule t).find? (·.1 == spec.output)).any (·.2.isOutput) = true))
    ⟨fun ⟨h₁, h₂⟩ => ⟨h₁, h₂⟩, fun h => ⟨h.1, h.2⟩⟩

section
variable {o : Options} {d : Design} {m : Module} {b : Bit}

theorem InputBit.considered {id : WireId} {i : Nat} (hsel : o.selection = none)
    (h : InputBit m id i) : Considered (sceneOf o d m) m id i := by
  have heligible : o.eligible m (m.wire id) = true := by
    unfold Options.eligible
    rw [hsel]
    simp [h.free]
  refine ⟨h.place, ?_, heligible⟩
  simp [h.one_way]

theorem Obliged.free (h : Obliged o d m b) : netOf m b ∉ (sceneOf o d m).clocks.buffered := by
  cases h with
  | sink hfree => exact hfree
  | port hfree => exact hfree

/-- A module on a chain finds its net among those that need a clock. -/
theorem sinks_of_obliged (hd : d.NamesUnique) (hp : d.PortsNumbered) (ha : d.Acyclic)
    (hsel : o.selection = none) (h : Obliged o d m b) (hm : m ∈ d.modules)
    (ho : m.name ∈ moduleOrder d o.selection) : netOf m b ∈ (sceneOf o d m).clocks.sinks := by
  induction h with
  | @sink m t b π _ hπ hnet ht hbox hsink =>
    have hbefore := visitedBefore_of_pin ha (Design.find?_name hd.names hm) ho hπ ht
    rw [← hnet]
    refine sinks_of_tagged hπ ?_
    refine (mem_sinks_progressBefore hd).mpr ⟨hbefore, t, ht, ?_⟩
    unfold TagsSink
    rw [if_pos hbox]
    exact hsink
  | @port m t b π id _ hπ hnet ht hbox htop hname hinput hdriven hrest ih =>
    have hbefore := visitedBefore_of_pin ha (Design.find?_name hd.names hm) ho hπ ht
    have htype := Design.name_of_find? ht
    have hmem := Design.mem_of_find? ht
    have hneeds : netOf t (.wire id π.index) ∈ (sceneOf o d t).clocks.sinks := by
      refine ih hmem ?_
      rw [htype]
      exact (visitedBefore_isPrefix o d m.name).subset hbefore
    have hpublish : Action.publishSink id π.index ∈ actions (sceneOf o d t) t := by
      refine mem_actions_publishSink.mpr
        ⟨hinput.considered hsel, ⟨hneeds, hrest.free⟩, ?_, hinput.input⟩
      unfold Insertion.hasDriver Insertion.isTopInput
      rw [driven_sceneOf hd hp, htop, Bool.and_false, Bool.or_false]
      simpa using hdriven
    rw [← hnet]
    refine sinks_of_tagged hπ ?_
    refine (mem_sinks_progressBefore hd).mpr ⟨hbefore, t, ht, ?_⟩
    unfold TagsSink
    simp only [hbox, Bool.false_eq_true, if_false]
    refine ⟨id, π.index, hpublish, ?_⟩
    rw [hname, htype]
    rfl

/-! ## At the top -/

/-- The output of an inserted cell that drives counts as one, unless the cell is a buffer. -/
theorem isOutput_of_drives {spec : BufferSpec} (hs : spec.Drives o d)
    (hbuffer : o.buffer.map (·.type) ≠ some spec.type) (name : String) (output : Bit)
    (feed : WireId) : (Signatures.ofDesign d).isOutput
      (bufferCell name spec.type spec output feed) spec.output = true := by
  unfold Signatures.isOutput
  rw [direction_ofDesign, bufferCell_type]
  cases hf : d.find? spec.type with
  | none =>
    dsimp only
    rw [bufferCell_direction, if_neg hs.distinct, if_pos rfl]
    rfl
  | some t =>
    have hout := hs.output hbuffer t hf
    rw [Option.any_map]
    exact hout

/-- A run puts a cell behind each input of the top module from which a chain leads to a sink:
the output of that cell is on the bit that stands for the net of the input. -/
theorem obligation_met {id : WireId} {i : Nat} (hd : d.NamesUnique) (hp : d.PortsNumbered)
    (ha : d.Acyclic) (ho : o.buffer.isSome ∨ o.pad.isSome) (hsel : o.selection = none)
    (hs : ∀ spec ∈ o.placeable, spec.Drives o d) (hm : m ∈ d.modules)
    (hbox : m.isBlackbox = false) (htop : m.isTop = true) (hin : InputBit m id i)
    (h : Obliged o d m (.wire id i)) :
    ∃ p m', run o d = .ok p ∧ p.design.find? m.name = some m' ∧
      ∃ k, m.cells.length ≤ k ∧ k < m'.cells.length ∧ ∃ spec ∈ o.placeable,
        (m'.cell k).type = spec.type ∧
        (m'.cell k).ports.get? spec.output = some [netOf m (.wire id i)] := by
  have horder : m.name ∈ moduleOrder d o.selection := by
    refine mem_moduleOrder hm ?_
    unfold startsAt
    rw [hbox, hsel]
    rfl
  obtain ⟨p, hrun⟩ := run_total (d := d) ho
  have hfind : p.design.find? m.name = some (exitOf o d m).module :=
    find?_run_visited hd hrun ⟨hm, horder, hbox⟩
  refine ⟨p, _, hrun, hfind, ?_⟩
  have htopin := Insertion.isTopInput_iff.mpr ⟨hin.input, htop⟩
  have hdrive : Action.drive id i ∈ actions (sceneOf o d m) m := by
    refine mem_actions_drive.mpr
      ⟨hin.considered hsel, ⟨?_, h.free⟩, Insertion.hasDriver_iff.mpr (.inr htopin)⟩
    exact sinks_of_obliged hd hp ha hsel h hm horder
  have hfresh : (entryIn o d (progressBefore o d m.name) m).Fresh := fresh_entryOf hd hm _
  have hplaced : netOf m (.wire id i) ∈ (insertedOf o d m).placed.map Prod.fst := by
    refine (Insertion.mem_placed_inserted hfresh _).mpr ⟨id, i, hdrive, ?_, rfl⟩
    exact Insertion.parts_ne_nil (e := sceneOf o d m) _ ho htopin hin.one_way
  have hkeeps : KeepsOutputs (sceneOf o d m) := by
    intro spec hspec
    refine ⟨(hs spec hspec).distinct, ?_⟩
    by_cases hbuffer : o.buffer.map (·.type) = some spec.type
    · exact .inr hbuffer
    · refine .inl fun name output feed => ?_
      rw [signatures_sceneOf hd hp]
      exact isOutput_of_drives (hs spec hspec) hbuffer name output feed
  obtain ⟨k, hnew, hlt, id', j, spec, -, hhead, htype, hport⟩ :=
    pin_of_placed (e := sceneOf o d m) hfresh rfl hkeeps hplaced
  exact ⟨k, hnew, hlt, spec, mem_placeable_of_mem_parts (List.mem_of_mem_head? hhead), htype, hport⟩

end

/-! ## A register in an instance -/

/-- A module with a register behind its clock input. -/
def registerStage : Module :=
  { name := "stage"
    wires := [{ name := "c", width := 1, isInput := true, position := 1 }]
    cells := [{ name := "ff", type := "DFF", ports := OrderedTable.empty.set "C" [.wire 0 0] }]
    ports := [0] }

/-- A clock input that goes to an instance of such a module. -/
def stagedTop : Module :=
  { name := "top"
    attributes := marked Attribute.top
    wires := [{ name := "clk", width := 1, isInput := true, position := 1 }]
    cells := [{ name := "u", type := "stage", ports := OrderedTable.empty.set "c" [.wire 0 0] }]
    ports := [0] }

def stagedRegister : Design := ⟨[registerType, registerStage, stagedTop]⟩

theorem stagedRegister_acyclic : stagedRegister.Acyclic := by
  refine Design.acyclic_of_rank
    (fun name => if name = "top" then 2 else if name = "stage" then 1 else 0) ?_
  decide

/-- Whatever is inserted, the clock input is obliged by the register, unless a net counts as
buffered. -/
theorem stagedRegister_obliged {o : Options}
    (htop : (sceneOf o stagedRegister stagedTop).clocks.buffered = [])
    (hstage : (sceneOf o stagedRegister registerStage).clocks.buffered = []) :
    Obliged o stagedRegister stagedTop (.wire 0 0) := by
  have hinput : InputBit registerStage 0 0 := ⟨by decide, rfl, rfl, rfl⟩
  refine .port (t := registerStage) (π := ⟨stagedTop.cell 0, "c", 0, .wire 0 0⟩)
    ?_ ?_ rfl rfl rfl rfl ?_ hinput ?_ ?_
  · rw [htop]
    exact List.not_mem_nil
  · exact Pin.mem_ofModule.mpr ⟨by decide, by decide⟩
  · rfl
  · have hports : ∀ c ∈ registerStage.cells, (c.ports.entries.filter fun e =>
        (Signatures.ofDesign stagedRegister).isOutput c e.1) = [] := by decide
    intro hb
    obtain ⟨c, hc, hb⟩ := List.mem_flatMap.mp hb
    rw [hports c (List.mem_of_mem_filter hc)] at hb
    exact List.not_mem_nil hb
  · refine .sink (t := registerType) (π := ⟨registerStage.cell 0, "C", 0, .wire 0 0⟩)
      ?_ ?_ rfl rfl rfl ?_
    · rw [hstage]
      exact List.not_mem_nil
    · exact Pin.mem_ofModule.mpr ⟨by decide, by decide⟩
    · exact ⟨0, by decide, by decide, 0, by decide, rfl⟩

def bufferOnly : Options := { buffer := some ⟨"BUFG", "O", "I"⟩ }

/-- The clock input of the register in the instance gets a buffer in the module above. -/
theorem obligation_met_stagedRegister :
    (∀ spec ∈ bufferOnly.placeable, spec.Drives bufferOnly stagedRegister) ∧
    Obliged bufferOnly stagedRegister stagedTop (.wire 0 0) ∧
    ∃ p m', run bufferOnly stagedRegister = .ok p ∧ p.design.find? "top" = some m' ∧
      ∃ k, 1 ≤ k ∧ k < m'.cells.length ∧ ∃ spec ∈ bufferOnly.placeable,
        (m'.cell k).type = spec.type ∧ (m'.cell k).ports.get? spec.output = some [.wire 0 0] := by
  have hs : ∀ spec ∈ bufferOnly.placeable, spec.Drives bufferOnly stagedRegister := by decide
  have h : Obliged bufferOnly stagedRegister stagedTop (.wire 0 0) :=
    stagedRegister_obliged (by cbv) (by cbv)
  have hd : stagedRegister.WellFormed := by decide
  refine ⟨hs, h, ?_⟩
  exact obligation_met hd.namesUnique (by decide) stagedRegister_acyclic (by decide) rfl hs
    (by decide) rfl rfl ⟨by decide, rfl, rfl, rfl⟩ h

/-! ## Chains without a cell

Without a cell type nothing can be inserted, and a white box is left alone. A pad whose output is
an input in its module is taken for a load, and a cell with one name for both ports has only the
one on the wire that feeds it. -/

/-- In a design that is in order, a chain starts at an input bit of a module with the top flag. -/
structure TopChain (o : Options) (d : Design) (m : Module) (id : WireId) (i : Nat) : Prop where
  names : d.NamesUnique
  ports : d.PortsNumbered
  acyclic : d.Acyclic
  selection : o.selection = none
  mem : m ∈ d.modules
  top : m.isTop = true
  input : InputBit m id i
  obliged : Obliged o d m (.wire id i)

/-- A run succeeds, and no cell that it inserts into a module has a port on a bit. -/
def Unserved (o : Options) (d : Design) (m : Module) (b : Bit) : Prop :=
  ∃ p m', run o d = .ok p ∧ p.design.find? m.name = some m' ∧
    ∀ k, m.cells.length ≤ k → k < m'.cells.length → ∀ port, (m'.cell k).ports.get? port ≠ some [b]

/-- A bit is unserved if it is on none of the ports behind those of the old cells. -/
theorem unserved_of_ports {o : Options} {d : Design} {m : Module} {b : Bit}
    (old new : List (List (String × Signal))) (hold : old.length = m.cells.length)
    (hports : ((run o d).toOption.bind fun p =>
      (p.design.find? m.name).map fun m' => m'.cells.map (·.ports.entries)) = some (old ++ new))
    (hnew : ∀ entries ∈ new, ∀ e ∈ entries, e.2 ≠ [b]) : Unserved o d m b := by
  obtain ⟨p, hrun, hports⟩ := Option.bind_eq_some_iff.mp hports
  obtain ⟨m', hfind, hcells⟩ := Option.map_eq_some_iff.mp hports
  have hok : run o d = .ok p := by
    cases h : run o d with
    | error f =>
      rw [h] at hrun
      cases hrun
    | ok q =>
      rw [h] at hrun
      exact congrArg Except.ok (Option.some.inj hrun)
  refine ⟨p, m', hok, hfind, fun k hk hlt port hport => ?_⟩
  have hcell := congrArg (·[k]?) hcells
  rw [List.getElem?_map, List.getElem?_eq_getElem hlt, Option.map_some,
    ← Module.cell_eq_getElem hlt, List.getElem?_append_right (hold ▸ hk)] at hcell
  exact hnew _ (List.mem_of_getElem? hcell.symm) _ (OrderedTable.mem_of_get? hport) rfl

/-- The module with the register, as a white box. -/
def whiteTop : Module :=
  { clockedTop with
    attributes := (marked Attribute.top).insert Attribute.whitebox (Value.ofBool true) }

/-- The clock input is obliged by the register next to it, unless a net counts as buffered. -/
theorem topChain_register {o : Options} {m : Module} (hm : m = clockedTop ∨ m = whiteTop)
    (hselection : o.selection = none)
    (hfree : (sceneOf o ⟨[registerType, bufferPrimitive, m]⟩ m).clocks.buffered = []) :
    TopChain o ⟨[registerType, bufferPrimitive, m]⟩ m 0 0 := by
  have hobliged : Obliged o ⟨[registerType, bufferPrimitive, m]⟩ m (.wire 0 0) := by
    refine .sink (t := registerType) (π := ⟨clockedTop.cell 0, "C", 0, .wire 0 0⟩) ?_ ?_ rfl rfl
      rfl ⟨0, by decide, by decide, 0, by decide, rfl⟩
    · rw [hfree]
      exact List.not_mem_nil
    · rcases hm with rfl | rfl <;> exact Pin.mem_ofModule.mpr ⟨by decide, by decide⟩
  have hacyclic : Design.Acyclic ⟨[registerType, bufferPrimitive, m]⟩ := by
    refine Design.acyclic_of_rank (fun name => if name = "top" then 1 else 0) ?_
    rcases hm with rfl | rfl <;> decide
  rcases hm with rfl | rfl
  all_goals
    exact ⟨Design.WellFormed.namesUnique (by decide), by decide, hacyclic, hselection, by decide,
      rfl, ⟨by decide, rfl, rfl, rfl⟩, hobliged⟩

/-- The ports of the pad are given in the wrong order. -/
def swappedPad : Options := { pad := some ⟨"BUFG", "I", "O"⟩ }

/-- Both ports of the buffer are given one name. -/
def onePort : Options := { buffer := some ⟨"BUFG", "Z", "Z"⟩ }

/-- The limits of `obligation_met`: no cell type, a pad that does not drive, a white box at the
top, and one name for two ports. -/
theorem obligation_unmet :
    (TopChain {} clockedRegister clockedTop 0 0 ∧ run {} clockedRegister = .error .noCellType) ∧
    (TopChain swappedPad clockedRegister clockedTop 0 0 ∧
      Unserved swappedPad clockedRegister clockedTop (netOf clockedTop (.wire 0 0))) ∧
    (TopChain bufferOnly ⟨[registerType, bufferPrimitive, whiteTop]⟩ whiteTop 0 0 ∧
      Unserved bufferOnly ⟨[registerType, bufferPrimitive, whiteTop]⟩ whiteTop
        (netOf whiteTop (.wire 0 0))) ∧
    TopChain onePort stagedRegister stagedTop 0 0 ∧
      Unserved onePort stagedRegister stagedTop (netOf stagedTop (.wire 0 0)) := by
  refine ⟨⟨topChain_register (.inl rfl) rfl (by cbv), rfl⟩,
    ⟨topChain_register (.inl rfl) rfl (by cbv), ?_⟩,
    ⟨topChain_register (.inr rfl) rfl (by cbv), ?_⟩, ?_, ?_⟩
  · exact unserved_of_ports [[("C", [.wire 0 0])]] [[("I", [.wire 2 0]), ("O", [.wire 1 0])]] rfl
      (by cbv) (by decide)
  · exact unserved_of_ports [[("C", [.wire 0 0])]] [] rfl (by cbv) (by decide)
  · have hd : stagedRegister.WellFormed := by decide
    exact ⟨hd.namesUnique, by decide, stagedRegister_acyclic, rfl, by decide, rfl,
      ⟨by decide, rfl, rfl, rfl⟩, stagedRegister_obliged (by cbv) (by cbv)⟩
  · exact unserved_of_ports [[("c", [.wire 0 0])]] [[("Z", [.wire 1 0])]] rfl (by cbv) (by decide)

end ClockNet.Buffering

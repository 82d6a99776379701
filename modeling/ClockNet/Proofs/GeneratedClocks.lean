import ClockNet.Proofs.Reports
import ClockNet.Proofs.SingleOutput

/-! # Clocks made by logic

A clock port counts as driven by logic, and a buffer as one for such a clock, by the bits as they
are connected. A run reports just the bits that are on a clock port and on an output themselves,
and not on that of an input buffer, each once; and a place takes a buffer of the rule's type exactly
if it is one of these bits (`generated_exact`). Another bit of the same net will not do
(`generated_missed_alias`). -/

namespace ClockNet.Buffering

open Insertion
open Survey (portBit?)

/-! ## The bits -/

/-- A bit on the clock port of a cell of the rule's type, where the port is an input. -/
def ClockBit (g : GeneratedClock) (signatures : Signatures) (m : Module) (b : Bit) : Prop :=
  ∃ k < m.cells.length, (m.cell k).type = g.type ∧
    signatures.isInput (m.cell k) g.clockPort = true ∧
    ∃ j, portBit? (m.cell k) g.clockPort j = some b

/-- A bit on an output of a cell that is not exempt. -/
def DrivenBit (o : Options) (signatures : Signatures) (m : Module) (b : Bit) : Prop :=
  ∃ k port j, OutputAt signatures m k port j b ∧ (m.cell k).type ∉ o.exempt

/-- A bit on the output of an input buffer. -/
def InputBufferBit (g : GeneratedClock) (m : Module) (b : Bit) : Prop :=
  ∃ type output, g.inputBuffer = some (type, output) ∧
    ∃ k < m.cells.length, (m.cell k).type = type ∧ ∃ j, portBit? (m.cell k) output j = some b

section
variable {o : Options} {g : GeneratedClock} {signatures : Signatures} {m : Module} {b : Bit}

theorem drivenBit_iff : DrivenBit o signatures m b ↔ b ∈ drivenBits o signatures m := by
  rw [mem_drivenBits]
  constructor
  · intro h
    obtain ⟨k, port, j, hat, hexempt⟩ := h
    exact ⟨⟨m.cell k, port, j, b⟩, Pin.mem_ofModule_iff.mpr ⟨k, hat.lt, rfl, hat.bit⟩, hexempt,
      hat.output, rfl⟩
  · intro h
    obtain ⟨π, hπ, hexempt, hout, rfl⟩ := h
    obtain ⟨k, hk, hc, hb⟩ := Pin.mem_ofModule_iff.mp hπ
    rw [hc] at hexempt hout
    exact ⟨k, π.port, π.index, ⟨hk, hout, hb⟩, hexempt⟩

theorem mem_portBits {check : Cell → Bool} {port : String} :
    b ∈ (m.cells.filter check).flatMap (fun c => (c.ports.get? port).getD []) ↔
      ∃ k < m.cells.length, check (m.cell k) = true ∧ ∃ j, portBit? (m.cell k) port j = some b := by
  simp only [List.mem_flatMap, List.mem_filter]
  constructor
  · intro h
    obtain ⟨c, ⟨hc, hcheck⟩, hb⟩ := h
    obtain ⟨k, hk, rfl⟩ := Module.exists_id_of_mem_cells hc
    obtain ⟨j, hj⟩ := List.mem_iff_getElem?.mp hb
    refine ⟨k, hk, hcheck, j, ?_⟩
    unfold portBit?
    cases hport : (m.cell k).ports.get? port with
    | none =>
      rw [hport] at hj
      cases hj
    | some signal =>
      rw [hport] at hj
      exact hj
  · intro h
    obtain ⟨k, hk, hcheck, j, hj⟩ := h
    obtain ⟨signal, hsignal, hb⟩ := Option.bind_eq_some_iff.mp hj
    refine ⟨m.cell k, ⟨Module.cell_mem hk, hcheck⟩, ?_⟩
    rw [hsignal]
    exact List.mem_of_getElem? hb

theorem clockBit_iff : ClockBit g signatures m b ↔ b ∈ g.clockBits signatures m := by
  unfold ClockBit GeneratedClock.clockBits
  rw [mem_portBits]
  simp only [Bool.and_eq_true, decide_eq_true_eq, and_assoc]

theorem inputBufferBit_iff : InputBufferBit g m b ↔ b ∈ g.bufferedBits m := by
  unfold InputBufferBit GeneratedClock.bufferedBits
  cases g.inputBuffer with
  | none => simp
  | some source =>
    obtain ⟨type, output⟩ := source
    dsimp only
    rw [mem_portBits]
    simp only [decide_eq_true_eq]
    constructor
    · intro h
      obtain ⟨type', output', he, hb⟩ := h
      cases he
      exact hb
    · exact fun hb => ⟨type, output, rfl, hb⟩

theorem nodup_eraseDups (bits : List Bit) : bits.eraseDups.Nodup := by
  induction hn : bits.length using Nat.strongRecOn generalizing bits with
  | _ n ih =>
    cases bits with
    | nil => exact List.nodup_nil
    | cons b rest =>
      rw [List.eraseDups_cons, List.nodup_cons, List.mem_eraseDups]
      refine ⟨by simp, ih _ ?_ _ rfl⟩
      rw [← hn, List.length_cons]
      exact Nat.lt_succ_of_le (List.length_filter_le _ _)

/-- The generated clocks of a rule, each once. -/
theorem mem_bits : b ∈ g.bits signatures m (drivenBits o signatures m) ↔
    ClockBit g signatures m b ∧ DrivenBit o signatures m b ∧ ¬ InputBufferBit g m b := by
  unfold GeneratedClock.bits
  rw [List.mem_eraseDups, List.mem_filter, clockBit_iff, drivenBit_iff, inputBufferBit_iff]
  simp

end

/-! ## The cells -/

/-- The types of the cells that are inserted at a place, the buffer before the pad. The buffer is
one for generated clocks exactly if the bit at the place is among these. -/
def cellTypes (e : Scene) (m : Module) (g : GeneratedClock) (buffer : BufferSpec)
    (generated : List Bit) (q : WireId × Nat) : List String :=
  (if (bufferFor? e m (m.wire q.1)).isSome then
      [if .wire q.1 q.2 ∈ generated then g.bufferType else buffer.type]
    else []) ++ ((padFor? e m (m.wire q.1)).map (·.type)).toList

theorem typesAt_eq {e : Scene} {g : GeneratedClock} {buffer : BufferSpec}
    (hbuffer : e.options.buffer = some buffer) (hrule : e.options.generatedClock = some g)
    (m : Module) : typesAt e m = cellTypes e m g buffer e.generated := by
  funext q
  unfold typesAt cellTypes parts
  rw [List.map_append]
  congr 1
  · cases hb : bufferFor? e m (m.wire q.1) with
    | none => rfl
    | some b =>
      rw [buffer_of_bufferFor? hb] at hbuffer
      cases hbuffer
      simp [bufferAt, bufferType, hrule]
  · cases padFor? e m (m.wire q.1) <;> rfl

/-- What a run has found and reported of the generated clocks of a module `m`, which has become
`m'`: the clocks, and the places at which cells have been inserted. -/
structure Detection (o : Options) (g : GeneratedClock) (buffer : BufferSpec) (e : Scene)
    (events : List Event) (m m' : Module) (clocks : List Bit) (places : List (WireId × Nat)) :
    Prop where
  nodup : clocks.Nodup
  mem_clocks : ∀ b, b ∈ clocks ↔ ClockBit g e.signatures m b ∧ DrivenBit o e.signatures m b ∧
    ¬ InputBufferBit g m b
  mem_places : ∀ q, q ∈ places ↔ Considered e m q.1 q.2 ∧
    e.clocks.Wanting (netOf m (.wire q.1 q.2)) ∧
      (DrivenBit o e.signatures m (.wire q.1 q.2) ∨ isTopInput m (m.wire q.1) = true)
  /-- All that is reported: the clocks first, then the cells. -/
  events : about m.name events =
    clocks.map (fun b => .generatedClock (Rtlil.spellSignal m [b]) m.name) ++
      places.flatMap (insertingAt m (cellTypes e m g buffer clocks))
  types : m'.cells.map (·.type) =
    m.cells.map (·.type) ++ places.flatMap (cellTypes e m g buffer clocks)

/-- A run reports the bits that are generated clocks themselves, each once, and inserts buffers of
the rule's type at these bits and at no others. -/
theorem generated_exact {o : Options} {d : Design} {p : Progress} {m : Module}
    {g : GeneratedClock} {buffer : BufferSpec} (hd : d.NamesUnique) (h : run o d = .ok p)
    (hv : Visited o d m) (hbuffer : o.buffer = some buffer) (hrule : o.generatedClock = some g) :
    (∃ m' clocks places, p.design.find? m.name = some m' ∧
      Detection o g buffer (sceneOf o d m) p.events m m' clocks places) ∧
    p.stats.generatedClocks = p.events.countP Event.isGeneratedClock ∧
    (d.PortsNumbered → (sceneOf o d m).signatures = .ofDesign d) := by
  have hgenerated : (sceneOf o d m).generated = g.bits (sceneOf o d m).signatures m
      (drivenBits o (sceneOf o d m).signatures m) := by
    show generatedBits o (sceneOf o d m).signatures m _ = _
    unfold generatedBits
    rw [hrule]
    rfl
  have htypes := typesAt_eq (e := sceneOf o d m) hbuffer hrule m
  obtain ⟨m', hfind, hcells⟩ := types_run hd h hv
  refine ⟨⟨m', (sceneOf o d m).generated, drivenPlaces (sceneOf o d m) m, hfind, ?_, ?_, ?_, ?_,
    ?_⟩, generatedClocks_run h, fun hp => signatures_sceneOf hd hp m⟩
  · rw [hgenerated]
    exact nodup_eraseDups _
  · intro b
    rw [hgenerated]
    exact mem_bits
  · intro q
    rw [mem_drivenPlaces, hasDriver_iff, drivenBit_iff]
    rfl
  · rw [reports_run hd h hv, ← htypes]
    rfl
  · rw [hcells, htypes]

/-! ## Clocks by one bit and by two -/

/-- Registers have their clocks looked at, and input buffers are no logic. -/
def registerClocks : Options where
  buffer := some ⟨"BUFG", "O", "I"⟩
  generatedClock := some ⟨"DFF", "C", some ("IBUF", "O"), "FCLK"⟩

def sourceOf (name type : String) (b : Bit) : Cell :=
  ({ name, type : Cell }.setPort "O" [b]).setDirection "O" .output

def registerOn (name : String) (b : Bit) : Cell := { name, type := "DFF" : Cell }.setPort "C" [b]

/-- Two registers, one with a clock from an input buffer and one with a clock from logic. -/
def bothClocks : Module :=
  { name := "top"
    wires := [{ name := "clk", width := 1 }, { name := "gclk", width := 1 }]
    cells := [sourceOf "ibuf" "IBUF" (.wire 0 0), sourceOf "gen" "GEN" (.wire 1 0),
      registerOn "ff" (.wire 0 0), registerOn "ff2" (.wire 1 0)] }

/-- The clock from logic is reported and gets the buffer type of the rule, the other one not. -/
theorem generated_exact_bothClocks : ∃ p, run registerClocks ⟨[registerType, bothClocks]⟩ = .ok p ∧
    (∃ m' clocks places, p.design.find? "top" = some m' ∧
      Detection registerClocks ⟨"DFF", "C", some ("IBUF", "O"), "FCLK"⟩ ⟨"BUFG", "O", "I"⟩
        (sceneOf registerClocks ⟨[registerType, bothClocks]⟩ bothClocks) p.events bothClocks m'
        clocks places) ∧
    about "top" p.events = [.generatedClock "\\gclk" "top", .inserting "BUFG" "top" "clk" 0,
      .inserting "FCLK" "top" "gclk" 0] := by
  have hd : (⟨[registerType, bothClocks]⟩ : Design).WellFormed := by decide
  have hv : Visited registerClocks ⟨[registerType, bothClocks]⟩ bothClocks :=
    ⟨by decide, mem_moduleOrder (by decide) rfl, rfl⟩
  have hevents : (run registerClocks ⟨[registerType, bothClocks]⟩).toOption.map
      (fun p => about "top" p.events) = some [.generatedClock "\\gclk" "top",
        .inserting "BUFG" "top" "clk" 0, .inserting "FCLK" "top" "gclk" 0] := by cbv
  obtain ⟨p, hp⟩ : ∃ p, run registerClocks ⟨[registerType, bothClocks]⟩ = .ok p := ⟨_, rfl⟩
  rw [hp] at hevents
  obtain ⟨hdetected, -⟩ := generated_exact hd.namesUnique hp hv rfl rfl
  exact ⟨p, hp, hdetected, Option.some.inj hevents⟩

/-- A register whose clock port is on another name of the net that logic drives. -/
def aliasedClock : Module :=
  { name := "top"
    wires := [{ name := "n", width := 1 }, { name := "c", width := 1 }]
    cells := [sourceOf "gen" "GEN" (.wire 0 0), registerOn "ff" (.wire 1 0)]
    connections := [([.wire 1 0], [.wire 0 0])] }

/-- Logic drives the net of the clock port, and no input buffer does; but no bit is on both the
clock port and the output. Nothing is reported, and the buffer inserted at the wire that the cell
drives is a plain one. -/
theorem generated_missed_alias :
    let d : Design := ⟨[registerType, aliasedClock]⟩
    let rule : GeneratedClock := ⟨"DFF", "C", some ("IBUF", "O"), "FCLK"⟩
    registerClocks.generatedClock = some rule ∧ Visited registerClocks d aliasedClock ∧
    ClockBit rule (.ofDesign d) aliasedClock (.wire 1 0) ∧
    (∃ b, netOf aliasedClock b = netOf aliasedClock (.wire 1 0) ∧
      DrivenBit registerClocks (.ofDesign d) aliasedClock b) ∧
    (∀ b, ¬ InputBufferBit rule aliasedClock b) ∧
    ∃ p m', run registerClocks d = .ok p ∧ p.design.find? "top" = some m' ∧
      p.stats.generatedClocks = 0 ∧
      about "top" p.events = [.inserting "BUFG" "top" "n" 0] ∧
      (m'.cell 2).type = "BUFG" ∧
      (m'.cell 2).ports.get? "O" = some [netOf aliasedClock (.wire 1 0)] ∧
      (m'.cell 0).ports.get? "O" = (m'.cell 2).ports.get? "I" := by
  intro d rule
  refine ⟨rfl, ⟨by decide, mem_moduleOrder (by decide) rfl, rfl⟩,
    ⟨1, by decide, by decide, by decide, 0, by decide⟩,
    ⟨.wire 0 0, by decide, 0, "O", 0, ⟨by decide, by decide, by decide⟩, by decide⟩, ?_, ?_⟩
  · intro b hb
    obtain ⟨type, output, he, k, hk, htype, -⟩ := hb
    cases he
    revert k
    decide
  · have hrun : (run registerClocks d).toOption.bind (fun p =>
        (p.design.find? "top").map fun m' => (p.stats.generatedClocks, about "top" p.events,
          (m'.cell 2).type, (m'.cell 2).ports.get? "O",
          decide ((m'.cell 0).ports.get? "O" = (m'.cell 2).ports.get? "I"))) =
        some (0, [.inserting "BUFG" "top" "n" 0], "BUFG",
          some [netOf aliasedClock (.wire 1 0)], true) := by cbv
    obtain ⟨p, hp⟩ : ∃ p, run registerClocks d = .ok p := ⟨_, rfl⟩
    rw [hp] at hrun
    obtain ⟨m', hm', he⟩ := Option.map_eq_some_iff.mp hrun
    simp only [Prod.mk.injEq, decide_eq_true_eq] at he
    obtain ⟨hcount, hevents, htype, hport, hsame⟩ := he
    exact ⟨p, m', hp, hm', hcount, hevents, htype, hport, hsame⟩

end ClockNet.Buffering

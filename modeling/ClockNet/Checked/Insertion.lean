import ClockNet.Checked.Registries
import ClockNet.Proofs.Actions

/-! # Inserting buffers, with assertions

The walk over the wires of a module again, on operations that check what they ask for and that keep
the maps of names. Cells and wires are added under fresh names, a cell is connected by its id once
the wire that feeds it is there, and the copy of an input port is connected bit by bit. Each step
does to the module what the plain one does; the ids of the walk stay in range, as wires are only
added (`visitWires_ok`). -/

namespace ClockNet.Buffering.Checked

open ClockNet.Checked (bind_ok foldlM_agrees)

variable {ε : Type}

/-- A run within one module, with the maps of its names. -/
structure Insertion extends Buffering.Insertion where
  wireNames : OrderedTable WireId
  cellNames : OrderedTable CellId

namespace Insertion

def registry (s : Insertion) : Registry := ⟨s.module, s.wireNames, s.cellNames⟩

def withRegistry (s : Insertion) (r : Registry) : Insertion :=
  { s with module := r.module, wireNames := r.wireNames, cellNames := r.cellNames }

def note (s : Insertion) (f : Buffering.Insertion → Buffering.Insertion) : Insertion :=
  { s with toInsertion := f s.toInsertion }

/-- The state is this one, and the maps have the names of its module. -/
structure Registers (s : Insertion) (t : Buffering.Insertion) : Prop where
  insertion_eq : s.toInsertion = t
  consistent : s.registry.Consistent

namespace Registers
variable {s : Insertion} {t : Buffering.Insertion}

theorem registry (h : s.Registers t) : s.registry.Registers t.module :=
  ⟨congrArg Buffering.Insertion.module h.insertion_eq, h.consistent⟩

theorem module_eq (h : s.Registers t) : s.module = t.module := h.registry.module_eq

theorem withRegistry (h : s.Registers t) {r : Registry} {m : Module} (hr : r.Registers m) :
    (s.withRegistry r).Registers { t with module := m } := by
  refine ⟨?_, hr.consistent⟩
  rw [← h.insertion_eq, ← hr.module_eq]
  rfl

theorem note (h : s.Registers t) {f : Buffering.Insertion → Buffering.Insertion}
    (hf : ∀ t, (f t).module = t.module) : (s.note f).Registers (f t) := by
  obtain ⟨rfl, hs⟩ := h
  refine ⟨rfl, ?_⟩
  rwa [Insertion.registry, Insertion.note, hf]

end Registers

end Insertion

/-! ## Cells -/

def addBuffer (r : Registry) (type : String) (spec : BufferSpec) (output : Bit) :
    ClockNet.Checked ε (Placement × Registry) := do
  let (name, r) ← r.nextName stem
  let (cell, r) ← r.createCell name type
  let (name, r) ← r.nextName stem
  let (feed, r) ← r.createWire name 1
  let r ← r.updateCell cell fun c =>
    (((c.setPort spec.output [output]).setPort spec.input [.wire feed 0]).setDirection
      spec.output .output).setDirection spec.input .input
  .ok (⟨cell, feed⟩, r)

/-- A fresh name depends on the names of cells only, not on what else they have. -/
theorem freshName_addCell (m : Module) {c c' : Cell} (h : c.name = c'.name) (stem : String) :
    (m.addCell c).freshName stem = (((m.addCell c').freshName stem).1,
      { m.addCell c with nextNumber := ((m.addCell c').freshName stem).2.nextNumber }) := by
  have hnames : (m.addCell c).names = (m.addCell c').names := by
    simp [Module.names, Module.addCell, h]
  unfold Module.freshName
  rw [hnames]
  rfl

section
variable {r : Registry} {m : Module}

theorem addBuffer_ok (h : r.Registers m) (type : String) (spec : BufferSpec) (output : Bit) :
    ∃ r', addBuffer (ε := ε) r type spec output =
        .ok ((Buffering.addBuffer m type spec output).1, r') ∧
      r'.Registers (Buffering.addBuffer m type spec output).2 := by
  unfold addBuffer Buffering.addBuffer
  obtain ⟨r₁, h₁, hr₁⟩ := h.nextName (ε := ε) stem
  have hnew := m.findCell_freshName stem
  generalize m.freshName stem = fresh at h₁ hr₁ hnew ⊢
  obtain ⟨name, m₁⟩ := fresh
  dsimp only at h₁ hr₁ hnew ⊢
  obtain ⟨r₂, h₂, hr₂⟩ := hr₁.createCell (ε := ε) hnew type
  obtain ⟨r₃, h₃, hr₃⟩ := hr₂.nextName (ε := ε) stem
  obtain ⟨r₄, h₄, hr₄⟩ := hr₃.createWire (ε := ε) (Module.findWire_freshName _ _) 1
  obtain ⟨n, hn⟩ := (m₁.addCell { name, type }).freshName_snd stem
  rw [hn] at hr₃ h₄ hr₄
  obtain ⟨r₅, h₅, hr₅⟩ := hr₄.updateCell (ε := ε)
    (show m₁.cells.length < _ by simp [Module.addWire, Module.addCell])
    (f := fun c => (((c.setPort spec.output [output]).setPort spec.input
      [.wire m₁.wires.length 0]).setDirection spec.output .output).setDirection spec.input .input)
    rfl
  -- the second fresh name is that of the module with the cell as it will be
  have hname : (bufferCell name type spec output m₁.wires.length).name =
      Cell.name { name, type } := rfl
  rw [freshName_addCell m₁ hname, hn]
  refine ⟨r₅, ?_, ?_⟩
  · simp only [h₁, bind_ok, h₂, h₃, h₄]
    exact congrArg (· >>= _) h₅
  · simp only [Module.modifyCell, Module.addWire, Module.addCell, modify_concat] at hr₅
    exact hr₅

end

def insertCell (s : Insertion) (type : String) (spec : BufferSpec) (w : Wire) (index : Nat)
    (output : Bit) : ClockNet.Checked ε (Placement × Insertion) := do
  let (place, r) ← addBuffer s.registry type spec output
  .ok (place, (s.withRegistry r).note fun t => { t with
    events := t.events ++ [.inserting type s.module.name w.name index] })

def insertPad (s : Insertion) (pad : BufferSpec) (w : Wire) (index : Nat) (net : Bit)
    (buffer : Option Placement) : ClockNet.Checked ε (Placement × Insertion) := do
  let output := match buffer with
    | some b => .wire b.feed 0
    | none => net
  let (place, s) ← insertCell s pad.type pad w index output
  .ok (⟨(buffer.map (·.cell)).getD place.cell, place.feed⟩,
    s.note fun t => { t with stats := { t.stats with pads := t.stats.pads + 1 } })

def insertBuffer (e : Scene) (s : Insertion) (buffer : BufferSpec) (w : Wire) (index : Nat)
    (bit net : Bit) : ClockNet.Checked ε (Placement × Insertion) := do
  let type := match e.options.generatedClock with
    | some g => if bit ∈ e.generated then g.bufferType else buffer.type
    | none => buffer.type
  let (place, s) ← insertCell s type buffer w index net
  .ok (place, s.note fun t => { t with stats := { t.stats with buffers := t.stats.buffers + 1 } })

def drive (e : Scene) (s : Insertion) (w : Wire) (index : Nat) (bit net : Bit) :
    ClockNet.Checked ε Insertion := do
  let (place, s) ← match Buffering.Insertion.bufferFor? e s.module w with
    | some buffer => do
      let (place, s) ← insertBuffer e s buffer w index bit net
      .ok (some place, s)
    | none => .ok (none, s)
  let (place, s) ← match Buffering.Insertion.padFor? e s.module w with
    | some pad => do
      let (place, s) ← insertPad s pad w index net place
      .ok (some place, s)
    | none => .ok (place, s)
  match place with
  | some p => .ok (s.note fun t => { t with placed := (net, p) :: t.placed })
  | none => .ok s

section
variable {s : Insertion} {t : Buffering.Insertion}

theorem insertCell_ok (h : s.Registers t) (type : String) (spec : BufferSpec) (w : Wire)
    (index : Nat) (output : Bit) :
    ∃ s', insertCell (ε := ε) s type spec w index output =
        .ok ((t.insertCell type spec w index output).1, s') ∧
      s'.Registers (t.insertCell type spec w index output).2 := by
  obtain ⟨r, he, hr⟩ := addBuffer_ok (ε := ε) h.registry type spec output
  refine ⟨_, by rw [insertCell, he]; rfl, ?_⟩
  rw [h.module_eq]
  exact (h.withRegistry hr).note fun _ => rfl

theorem insertPad_ok (h : s.Registers t) (pad : BufferSpec) (w : Wire) (index : Nat) (net : Bit)
    (buffer : Option Placement) :
    ∃ s', insertPad (ε := ε) s pad w index net buffer =
        .ok ((t.insertPad pad w index net buffer).1, s') ∧
      s'.Registers (t.insertPad pad w index net buffer).2 := by
  unfold insertPad Buffering.Insertion.insertPad
  dsimp only
  obtain ⟨s', he, hs'⟩ := insertCell_ok (ε := ε) h pad.type pad w index
    (match buffer with | some b => .wire b.feed 0 | none => net)
  refine ⟨_, by rw [he]; rfl, ?_⟩
  exact hs'.note fun _ => rfl

theorem insertBuffer_ok (h : s.Registers t) (e : Scene) (buffer : BufferSpec) (w : Wire)
    (index : Nat) (bit net : Bit) :
    ∃ s', insertBuffer (ε := ε) e s buffer w index bit net =
        .ok ((t.insertBuffer e buffer w index bit net).1, s') ∧
      s'.Registers (t.insertBuffer e buffer w index bit net).2 := by
  unfold insertBuffer Buffering.Insertion.insertBuffer
  dsimp only
  obtain ⟨s', he, hs'⟩ := insertCell_ok (ε := ε) h (match e.options.generatedClock with
    | some g => if bit ∈ e.generated then g.bufferType else buffer.type
    | none => buffer.type) buffer w index net
  refine ⟨_, by rw [he]; rfl, ?_⟩
  exact hs'.note fun _ => rfl

/-- A pad goes in front of what has been placed so far, if the wire takes one. -/
theorem padded_ok (h : s.Registers t) (e : Scene) (w : Wire) (index : Nat) (net : Bit)
    (place : Option Placement) : ∃ s', (do
      let (place, s) ← match Buffering.Insertion.padFor? e s.module w with
        | some pad => do
          let (place, s) ← insertPad s pad w index net place
          .ok (some place, s)
        | none => .ok (place, s)
      match place with
      | some p => .ok (s.note fun t => { t with placed := (net, p) :: t.placed })
      | none => .ok s : ClockNet.Checked ε Insertion) = .ok s' ∧ s'.Registers (
      let (place, t) : Option Placement × Buffering.Insertion :=
        match Buffering.Insertion.padFor? e t.module w with
        | some pad =>
          let (place, t) := t.insertPad pad w index net place
          (some place, t)
        | none => (place, t)
      match place with
      | some p => { t with placed := (net, p) :: t.placed }
      | none => t) := by
  rw [h.module_eq]
  cases Buffering.Insertion.padFor? e t.module w with
  | some pad =>
    obtain ⟨s', he, hs'⟩ := insertPad_ok (ε := ε) h pad w index net place
    dsimp only
    rw [he]
    refine ⟨_, rfl, ?_⟩
    exact hs'.note fun _ => rfl
  | none =>
    cases place with
    | some p =>
      refine ⟨_, rfl, ?_⟩
      exact h.note fun _ => rfl
    | none => exact ⟨s, rfl, h⟩

theorem drive_ok (h : s.Registers t) (e : Scene) (w : Wire) (index : Nat) (bit net : Bit) :
    ∃ s', drive (ε := ε) e s w index bit net = .ok s' ∧
      s'.Registers (t.drive e w index bit net) := by
  unfold drive Buffering.Insertion.drive
  rw [h.module_eq]
  cases Buffering.Insertion.bufferFor? e t.module w with
  | some buffer =>
    obtain ⟨s', he, hs'⟩ := insertBuffer_ok (ε := ε) h e buffer w index bit net
    dsimp only
    rw [he]
    exact padded_ok hs' e w index net _
  | none => exact padded_ok h e w index net none

/-! ## Wires -/

def visitBit (e : Scene) (id : WireId) (w : Wire) (s : Insertion) (index : Nat) :
    ClockNet.Checked ε Insertion :=
  let bit := Bit.wire id index
  let net := e.aliases.root bit
  if e.clocks.buffered.contains net then
    .ok (if w.isOutput then s.note (·.publishBuffered w index) else s)
  else if !e.clocks.sinks.contains net then .ok s
  else if Buffering.Insertion.hasDriver e s.module w bit then drive e s w index bit net
  else .ok (if w.isInput then s.note (·.publishSink w index) else s)

theorem visitBit_ok (h : s.Registers t) (e : Scene) (id : WireId) (w : Wire) (index : Nat) :
    ∃ s', visitBit (ε := ε) e id w s index = .ok s' ∧ s'.Registers (t.visitBit e id w index) := by
  unfold visitBit Buffering.Insertion.visitBit
  rw [h.module_eq]
  dsimp only
  split_ifs
  · exact ⟨_, rfl, h.note fun _ => rfl⟩
  · exact ⟨s, rfl, h⟩
  · exact ⟨s, rfl, h⟩
  · exact drive_ok h e w index _ _
  · exact ⟨_, rfl, h.note fun _ => rfl⟩
  · exact ⟨s, rfl, h⟩

def connectReplacement (e : Scene) (id new : WireId) (s : Insertion) (index : Nat) :
    ClockNet.Checked ε Insertion := do
  let target := match s.placedOn? (e.aliases.root (.wire id index)) with
    | some p => Bit.wire p.feed 0
    | none => .wire id index
  let r ← s.registry.join [target] [.wire new index]
  .ok (s.withRegistry r)

def replaceInput (e : Scene) (id : WireId) (w : Wire) (s : Insertion) :
    ClockNet.Checked ε Insertion := do
  let (name, r) ← s.registry.nextName stem
  let (new, r) ← r.createWireLike name id
  let s ← (List.range w.width).foldlM (connectReplacement e id new) (s.withRegistry r)
  .ok (s.note fun t => { t with replaced := t.replaced ++ [(id, new)] })

theorem connectReplacement_ok (h : s.Registers t) (e : Scene) (id new : WireId) (index : Nat) :
    ∃ s', connectReplacement (ε := ε) e id new s index = .ok s' ∧
      s'.Registers (t.connectReplacement e id new index) := by
  unfold connectReplacement
  rw [h.insertion_eq]
  dsimp only
  obtain ⟨r, he, hr⟩ := h.registry.join (ε := ε)
    [match t.placedOn? (e.aliases.root (.wire id index)) with
      | some p => Bit.wire p.feed 0
      | none => .wire id index] [.wire new index] rfl
  exact ⟨_, by rw [he]; rfl, h.withRegistry hr⟩

theorem replaceInput_ok (h : s.Registers t) (e : Scene) {id : WireId} (w : Wire)
    (hid : id < t.module.wires.length) :
    ∃ s', replaceInput (ε := ε) e id w s = .ok s' ∧ s'.Registers (t.replaceInput e id w) := by
  have hnew := t.module.findWire_freshName stem
  obtain ⟨n, hn⟩ := t.module.freshName_snd stem
  have hlt : id < (t.module.freshName stem).2.wires.length := by rw [hn]; exact hid
  obtain ⟨r₁, h₁, hr₁⟩ := h.registry.nextName (ε := ε) stem
  obtain ⟨r₂, h₂, hr₂⟩ := hr₁.createWireLike (ε := ε) hnew hlt
  obtain ⟨s₃, h₃, hs₃⟩ := foldlM_agrees (h.withRegistry hr₂) (l := List.range w.width)
    fun s t hst i _ => connectReplacement_ok (ε := ε) hst e id _ i
  unfold replaceInput Buffering.Insertion.replaceInput
  rw [h₁, bind_ok]
  dsimp only
  rw [h₂, bind_ok]
  dsimp only
  rw [h₃, Wire.foldPlaces_eq]
  exact ⟨_, rfl, hs₃.note fun _ => rfl⟩

def visitWire (e : Scene) (s : Insertion) (id : WireId) : ClockNet.Checked ε Insertion := do
  let w ← s.module.lookupWire id
  if w.isInput && w.isOutput then .ok s
  else if !e.options.eligible s.module w then
    .ok (if w.isOutput then w.foldPlaces (fun s i => s.note (·.publishBuffered w i)) s else s)
  else do
    let replaces := w.isInput && w.anyPlace fun i =>
      Buffering.Insertion.needsDriver e s.module w (.wire id i)
    let s ← (List.range w.width).foldlM (visitBit e id w) s
    if replaces then replaceInput e id w s else .ok s

theorem visitWire_ok (h : s.Registers t) (e : Scene) {id : WireId}
    (hid : id < t.module.wires.length) :
    ∃ s', visitWire (ε := ε) e s id = .ok s' ∧ s'.Registers (t.visitWire e id) := by
  have hgrown : t.module.Grown ((t.module.wire id).foldPlaces
      (Buffering.Insertion.visitBit e id (t.module.wire id)) t).module := by
    rw [Wire.foldPlaces_eq, Insertion.foldl_visitBit (.refl _)]
    exact Action.grown_foldl e _ _ t
  obtain ⟨s', he, hs'⟩ := foldlM_agrees (f := visitBit (ε := ε) e id (t.module.wire id)) h
    (l := List.range (t.module.wire id).width) fun _ _ hst i _ => visitBit_ok hst e id _ i
  rw [← Wire.foldPlaces_eq] at hs'
  unfold visitWire Buffering.Insertion.visitWire
  rw [h.module_eq, Module.lookupWire_ok hid, bind_ok]
  dsimp only
  split_ifs
  · exact ⟨s, rfl, h⟩
  · refine ⟨_, rfl, ?_⟩
    rw [Wire.foldPlaces_eq, Wire.foldPlaces_eq]
    exact List.foldl_rel h fun i _ s t hst => hst.note fun _ => rfl
  · exact ⟨s, rfl, h⟩
  · rw [he]
    exact replaceInput_ok hs' e _ (Nat.lt_of_lt_of_le hid hgrown.wires_length)
  · rw [he]
    exact ⟨s', rfl, hs'⟩

def visitWires (e : Scene) (s : Insertion) : ClockNet.Checked ε Insertion :=
  s.module.wireIds.foldlM (visitWire e) s

/-- Every wire that the module has at the start is there when the walk comes to it. -/
theorem visitWires_ok (h : s.Registers t) (e : Scene) :
    ∃ s', visitWires (ε := ε) e s = .ok s' ∧ s'.Registers (t.visitWires e) := by
  unfold visitWires Buffering.Insertion.visitWires
  rw [h.module_eq]
  have hstep : ∀ s' t', Insertion.Registers s' t' ∧ t.module.Grown t'.module →
      ∀ id ∈ t.module.wireIds, ∃ s'', visitWire (ε := ε) e s' id = .ok s'' ∧
        s''.Registers (t'.visitWire e id) ∧ t.module.Grown (t'.visitWire e id).module := by
    rintro s' t' ⟨hs', hgrown⟩ id hid
    have hlt : id < t'.module.wires.length :=
      Nat.lt_of_lt_of_le (List.mem_range.mp hid) hgrown.wires_length
    obtain ⟨s'', he, hs''⟩ := visitWire_ok (ε := ε) hs' e hlt
    refine ⟨s'', he, hs'', hgrown.trans ?_⟩
    rw [Buffering.Insertion.visitWire_eq (.refl _) hlt]
    exact Action.grown_foldl e _ _ t'
  obtain ⟨s', he, hs', -⟩ := foldlM_agrees ⟨h, .refl _⟩ hstep
  exact ⟨s', he, hs'⟩

end

end ClockNet.Buffering.Checked

import ClockNet.Buffering.Insertion
import ClockNet.Proofs.Alias
import ClockNet.Proofs.Naming

/-! # How a module grows

Insertion only appends: wires, cells and connections that were there stay where they are
(`Grown`). What is put at a net is a chain of cells, the buffer on the net and the pad in front
of it (`parts`), each on a new wire of one bit (`addParts`); what takes the place of an input
port is a copy of its wire, connected bit by bit (`replaceInput_module`). -/

namespace ClockNet

namespace Module

/-- Wires, cells and connections were appended and nothing else has changed. -/
structure Grown (m m' : Module) : Prop where
  name : m'.name = m.name
  attributes : m'.attributes = m.attributes
  ports : m'.ports = m.ports
  wires : m.wires <+: m'.wires
  cells : m.cells <+: m'.cells
  connections : m.connections <+: m'.connections

namespace Grown
variable {m m' m'' : Module}

theorem refl (m : Module) : Grown m m :=
  ⟨rfl, rfl, rfl, List.prefix_rfl, List.prefix_rfl, List.prefix_rfl⟩

theorem trans (h : Grown m m') (h' : Grown m' m'') : Grown m m'' :=
  ⟨h'.name.trans h.name, h'.attributes.trans h.attributes, h'.ports.trans h.ports,
    h.wires.trans h'.wires, h.cells.trans h'.cells, h.connections.trans h'.connections⟩

theorem wires_length (h : Grown m m') : m.wires.length ≤ m'.wires.length := h.wires.length_le

theorem cells_length (h : Grown m m') : m.cells.length ≤ m'.cells.length := h.cells.length_le

theorem wire (h : Grown m m') {id : WireId} (hid : id < m.wires.length) :
    m'.wire id = m.wire id := by
  obtain ⟨rest, hr⟩ := h.wires
  unfold Module.wire
  rw [← hr, List.getElem?_append_left hid]

theorem cell (h : Grown m m') {id : CellId} (hid : id < m.cells.length) :
    m'.cell id = m.cell id := by
  obtain ⟨rest, hr⟩ := h.cells
  unfold Module.cell
  rw [← hr, List.getElem?_append_left hid]

theorem isTop (h : Grown m m') : m'.isTop = m.isTop := by
  unfold Module.isTop
  rw [h.attributes]

end Grown

/-- The names of the wires are unique, and so are those of the cells. -/
structure NamesUnique (m : Module) : Prop where
  wires : (m.wires.map (·.name)).Nodup
  cells : (m.cells.map (·.name)).Nodup

theorem NamesUnique.append_wire {m : Module} (h : m.NamesUnique) {w : Wire}
    (hw : w.name ∉ m.wires.map (·.name)) : ((m.wires ++ [w]).map (·.name)).Nodup := by
  exact nodup_concat h.wires hw

theorem NamesUnique.append_cell {m : Module} (h : m.NamesUnique) {c : Cell}
    (hc : c.name ∉ m.cells.map (·.name)) : ((m.cells ++ [c]).map (·.name)).Nodup := by
  exact nodup_concat h.cells hc

theorem WellFormed.namesUnique {m : Module} (h : m.WellFormed) : m.NamesUnique :=
  ⟨h.wires_nodup, h.cells_nodup⟩

end Module

/-- The names of the modules are unique, and so are those of the wires and of the cells of each. -/
structure Design.NamesUnique (d : Design) : Prop where
  names : (d.modules.map (·.name)).Nodup
  modules : ∀ m ∈ d.modules, m.NamesUnique

theorem Design.WellFormed.namesUnique {d : Design} (h : d.WellFormed) : d.NamesUnique :=
  ⟨h.names_nodup, fun m hm => (h.modules m hm).namesUnique⟩

namespace Module

/-! ## Bits of old and of new wires -/

/-- The bit is a constant or belongs to one of the wires that the module has. -/
def Owns (m : Module) : Bit → Prop
  | .const _ => True
  | .wire id _ => id < m.wires.length

theorem HasBit.owns {m : Module} {b : Bit} (h : m.HasBit b) : m.Owns b := by
  cases b with
  | const => trivial
  | wire id i => exact lt_of_place h

theorem Grown.owns {m m' : Module} (h : Grown m m') {b : Bit} (hb : m.Owns b) : m'.Owns b := by
  cases b with
  | const => trivial
  | wire id i => exact Nat.lt_of_lt_of_le hb h.wires_length

theorem not_owns_new (m : Module) (i : Nat) : ¬ m.Owns (.wire m.wires.length i) := Nat.lt_irrefl _

theorem not_owns {m : Module} {id : WireId} (h : m.wires.length ≤ id) (i : Nat) :
    ¬ m.Owns (.wire id i) := Nat.not_lt.mpr h

theorem WellFormed.owns_pairs {m : Module} (h : m.WellFormed) :
    ∀ p ∈ AliasMap.pairsOf m.connections, m.Owns p.1 ∧ m.Owns p.2 := by
  intro p hp
  obtain ⟨c, hc, hp⟩ := List.mem_flatMap.mp hp
  have hz := List.of_mem_zip hp
  exact ⟨(h.connection_bits c hc _ (List.mem_append_left _ hz.1)).owns,
    (h.connection_bits c hc _ (List.mem_append_right _ hz.2)).owns⟩

theorem WellFormed.owns_root {m : Module} (h : m.WellFormed) (b : Bit) :
    m.Owns ((AliasMap.ofConnections m.connections).root b) ↔ m.Owns b := by
  refine AliasMap.root_iff (fun q hq => ?_) b
  obtain ⟨h₁, h₂⟩ := h.owns_pairs q hq
  exact iff_of_true h₁ h₂

end Module

namespace Buffering

/-! ## Inserted cells -/

section BufferCell
variable {name type : String} {spec : BufferSpec} {output : Bit} {feed : WireId}

theorem bufferCell_ports (h : spec.output ≠ spec.input) :
    (bufferCell name type spec output feed).ports.entries =
      [(spec.output, [output]), (spec.input, [.wire feed 0])] := by
  simp [bufferCell, Cell.setPort, Cell.setDirection, OrderedTable.set, OrderedTable.empty,
    replaceOrAppend, h]

theorem mem_bufferCell_ports {e : String × Signal}
    (he : e ∈ (bufferCell name type spec output feed).ports.entries) :
    e = (spec.output, [output]) ∨ e = (spec.input, [.wire feed 0]) := by
  by_cases h : spec.output = spec.input
  · right
    simpa [bufferCell, Cell.setPort, Cell.setDirection, OrderedTable.set, OrderedTable.empty,
      replaceOrAppend, h] using he
  · rw [bufferCell_ports h] at he
    simpa using he

theorem bufferCell_direction (port : String) :
    (bufferCell name type spec output feed).directions.get? port =
      if port = spec.input then some .input else if port = spec.output then some .output
      else none := by
  simp only [bufferCell, Cell.setPort, Cell.setDirection, SortedTable.get?_insert,
    SortedTable.get?_empty]

@[simp] theorem bufferCell_type : (bufferCell name type spec output feed).type = type := rfl

end BufferCell

/-- What adding a buffer does: one cell and one wire more, both under new names. -/
theorem addBuffer_module (m : Module) (type : String) (spec : BufferSpec) (output : Bit) :
    ∃ name wireName n, name ∉ m.cells.map (·.name) ∧ wireName ∉ m.wires.map (·.name) ∧
      (addBuffer m type spec output).2 = { m with
        wires := m.wires ++ [{ name := wireName, width := 1 }]
        cells := m.cells ++ [bufferCell name type spec output m.wires.length]
        nextNumber := n } := by
  obtain ⟨k, hk⟩ := m.freshName_snd stem
  let c := bufferCell (m.freshName stem).1 type spec output m.wires.length
  let m₁ : Module := (m.freshName stem).2.addCell c
  refine ⟨(m.freshName stem).1, (m₁.freshName stem).1, (m₁.freshName stem).2.nextNumber,
    fun h => m.freshName_not_mem stem (List.mem_append_right _ h), fun h => ?_, rfl⟩
  refine m₁.freshName_not_mem stem (List.mem_append_left _ ?_)
  have hw : m₁.wires = m.wires := by simp only [m₁, Module.addCell, hk]
  rwa [hw]

@[simp] theorem addBuffer_placement (m : Module) (type : String) (spec : BufferSpec)
    (output : Bit) :
    (addBuffer m type spec output).1 = ⟨m.cells.length, m.wires.length⟩ := rfl

theorem grown_addBuffer (m : Module) (type : String) (spec : BufferSpec) (output : Bit) :
    m.Grown (addBuffer m type spec output).2 := by
  obtain ⟨name, wireName, n, -, -, he⟩ := addBuffer_module m type spec output
  rw [he]
  exact ⟨rfl, rfl, rfl, List.prefix_append _ _, List.prefix_append _ _, List.prefix_rfl⟩

theorem addBuffer_wires_length (m : Module) (type : String) (spec : BufferSpec) (output : Bit) :
    (addBuffer m type spec output).2.wires.length = m.wires.length + 1 := by
  obtain ⟨name, wireName, n, -, -, he⟩ := addBuffer_module m type spec output
  rw [he, List.length_append, List.length_singleton]

theorem addBuffer_cells_length (m : Module) (type : String) (spec : BufferSpec) (output : Bit) :
    (addBuffer m type spec output).2.cells.length = m.cells.length + 1 := by
  obtain ⟨name, wireName, n, -, -, he⟩ := addBuffer_module m type spec output
  rw [he, List.length_append, List.length_singleton]

/-! ## Chains of inserted cells -/

def bufferType (e : Scene) (buffer : BufferSpec) (bit : Bit) : String :=
  match e.options.generatedClock with
  | some g => if bit ∈ e.generated then g.bufferType else buffer.type
  | none => buffer.type

def bufferAt (e : Scene) (buffer : BufferSpec) (bit : Bit) : BufferSpec :=
  { buffer with type := bufferType e buffer bit }

/-- The cells that a net takes at a bit of a wire, the one on the net first. -/
def parts (e : Scene) (m : Module) (w : Wire) (bit : Bit) : List BufferSpec :=
  ((Insertion.bufferFor? e m w).map (bufferAt e · bit)).toList ++
    (Insertion.padFor? e m w).toList

/-- Adds a chain of cells, each in front of the wire that feeds the one before it. -/
def addParts (m : Module) (output : Bit) : List BufferSpec → Module
  | [] => m
  | spec :: rest =>
    addParts (addBuffer m spec.type spec output).2 (.wire m.wires.length 0) rest

namespace Insertion

theorem isTopInput_iff {m : Module} {w : Wire} :
    isTopInput m w = true ↔ w.isInput = true ∧ m.isTop = true := by
  unfold isTopInput
  rw [Bool.and_eq_true]

theorem hasDriver_iff {e : Scene} {m : Module} {w : Wire} {bit : Bit} :
    hasDriver e m w bit = true ↔ bit ∈ e.driven ∨ isTopInput m w = true := by
  unfold hasDriver
  rw [Bool.or_eq_true, List.contains_eq_mem, decide_eq_true_eq]

theorem padFor?_eq_some {e : Scene} {m : Module} {w : Wire} {pad : BufferSpec} :
    padFor? e m w = some pad ↔ isTopInput m w = true ∧ e.options.pad = some pad := by
  unfold padFor?
  split <;> simp_all

theorem buffer_of_bufferFor? {e : Scene} {m : Module} {w : Wire} {buffer : BufferSpec}
    (h : bufferFor? e m w = some buffer) : e.options.buffer = some buffer := by
  unfold bufferFor? at h
  split at h
  · cases h
  · exact h

/-- Where a pad is the only cell of an input, there is no buffer, or none for inputs. -/
theorem pad_alone {e : Scene} {m : Module} {w : Wire} {pad : BufferSpec}
    (hpad : padFor? e m w = some pad) (hbuffer : bufferFor? e m w = none)
    (hout : w.isOutput = false) : e.options.buffer = none ∨ e.buffersInputs = false := by
  unfold bufferFor? at hbuffer
  rw [hpad, hout] at hbuffer
  cases hinputs : e.buffersInputs with
  | false => exact .inr rfl
  | true =>
    rw [hinputs] at hbuffer
    exact .inl (by simpa using hbuffer)

theorem padFor?_grown {m m' : Module} (h : m.Grown m') (e : Scene) (w : Wire) :
    padFor? e m' w = padFor? e m w := by
  unfold padFor? isTopInput
  rw [h.isTop]

theorem parts_eq_nil {e : Scene} {m : Module} {w : Wire} {bit : Bit} :
    parts e m w bit = [] ↔ bufferFor? e m w = none ∧ padFor? e m w = none := by
  unfold parts
  rw [List.append_eq_nil_iff]
  cases bufferFor? e m w <;> cases padFor? e m w <;> simp

/-- A wire that is no output port takes nothing only if there is no buffer, and no pad for it. -/
theorem parts_eq_nil_of_one_way {e : Scene} {m : Module} {w : Wire} {bit : Bit}
    (hone : w.isOutput = false) :
    parts e m w bit = [] ↔ e.options.buffer = none ∧ padFor? e m w = none := by
  rw [parts_eq_nil]
  refine and_congr_left fun hpad => ?_
  unfold bufferFor?
  rw [hone, hpad]
  rfl

theorem parts_ne_nil {e : Scene} {m : Module} {w : Wire} (bit : Bit)
    (ho : e.options.buffer.isSome ∨ e.options.pad.isSome) (htop : isTopInput m w = true)
    (hone : w.isOutput = false) : parts e m w bit ≠ [] := by
  intro hnil
  obtain ⟨hbuffer, hpad⟩ := (parts_eq_nil_of_one_way hone).mp hnil
  unfold padFor? at hpad
  rw [if_pos htop] at hpad
  rw [hbuffer, hpad] at ho
  simp at ho

theorem grown_addParts (m : Module) (output : Bit) (specs : List BufferSpec) :
    m.Grown (addParts m output specs) := by
  induction specs generalizing m output with
  | nil => exact Module.Grown.refl m
  | cons spec rest ih => exact (grown_addBuffer _ _ _ _).trans (ih _ _)

theorem insertBuffer_spec {e : Scene} {s t : Insertion} {buffer : BufferSpec} {w : Wire}
    {index : Nat} {bit net : Bit} {place : Placement}
    (h : insertBuffer e s buffer w index bit net = (place, t)) :
    place = ⟨s.module.cells.length, s.module.wires.length⟩ ∧
    t.module = (addBuffer s.module (bufferAt e buffer bit).type (bufferAt e buffer bit) net).2 ∧
    t.placed = s.placed ∧ t.tags = s.tags ∧ t.replaced = s.replaced := by
  cases h
  exact ⟨rfl, rfl, rfl, rfl, rfl⟩

/-- What inserting a pad does: it is put on the wire that feeds the buffer, or on the net. -/
theorem insertPad_spec {s t : Insertion} {pad : BufferSpec} {w : Wire} {index : Nat} {net : Bit}
    {buffer : Option Placement} {place : Placement}
    (h : insertPad s pad w index net buffer = (place, t)) :
    place = ⟨(buffer.map (·.cell)).getD s.module.cells.length, s.module.wires.length⟩ ∧
    t.module = (addBuffer s.module pad.type pad
      ((buffer.map fun b => Bit.wire b.feed 0).getD net)).2 ∧
    t.placed = s.placed ∧ t.tags = s.tags ∧ t.replaced = s.replaced := by
  cases buffer with
  | none => cases h; exact ⟨rfl, rfl, rfl, rfl, rfl⟩
  | some b => cases h; exact ⟨rfl, rfl, rfl, rfl, rfl⟩

/-- What driving a bit does: a chain of cells is added, and where it is not empty its first
cell and its last wire are what has been placed on the net. -/
theorem drive_spec (e : Scene) (s : Insertion) (w : Wire) (index : Nat) (bit net : Bit) :
    (drive e s w index bit net).module = addParts s.module net (parts e s.module w bit) ∧
    (drive e s w index bit net).placed =
      (if parts e s.module w bit = [] then s.placed
        else (net, ⟨s.module.cells.length,
          s.module.wires.length + (parts e s.module w bit).length - 1⟩) :: s.placed) ∧
    (drive e s w index bit net).tags = s.tags ∧
    (drive e s w index bit net).replaced = s.replaced := by
  cases hb : bufferFor? e s.module w with
  | none =>
    cases hp : padFor? e s.module w with
    | none => simp [drive, parts, addParts, hb, hp]
    | some pad => simp [drive, parts, addParts, hb, hp, insertPad, insertCell]
  | some buffer =>
    unfold drive
    simp only [hb]
    generalize hi : insertBuffer e s buffer w index bit net = r
    obtain ⟨place, t⟩ := r
    obtain ⟨rfl, hm, hpl, ht, hr⟩ := insertBuffer_spec hi
    have hpad : padFor? e t.module w = padFor? e s.module w := by
      rw [hm]
      exact padFor?_grown (grown_addBuffer _ _ _ _) e w
    simp only [hpad]
    cases hp : padFor? e s.module w with
    | none => simp [parts, addParts, hb, hp, hm, hpl, ht, hr]
    | some pad =>
      dsimp only
      generalize hj : insertPad t pad w index net
        (some ⟨s.module.cells.length, s.module.wires.length⟩) = q
      obtain ⟨place', u⟩ := q
      obtain ⟨rfl, hm', hpl', ht', hr'⟩ := insertPad_spec hj
      have hlen := addBuffer_wires_length s.module (bufferAt e buffer bit).type
        (bufferAt e buffer bit) net
      simp [parts, addParts, hb, hp, hm', hpl', ht', hr', hpl, ht, hr, hlen, hm]

/-! ## Copies of input ports -/

/-- The bit that a bit of the copy of an input port is connected to. -/
def copiedBit (e : Scene) (s : Insertion) (id : WireId) (index : Nat) : Bit :=
  match s.placedOn? (e.aliases.root (.wire id index)) with
  | some p => .wire p.feed 0
  | none => .wire id index

theorem foldl_connectReplacement (e : Scene) (id new : WireId) (places : List Nat)
    (s : Insertion) : places.foldl (connectReplacement e id new) s = { s with
      module := { s.module with
        connections := s.module.connections ++ places.map fun i =>
          ([copiedBit e s id i], [.wire new i]) } } := by
  induction places generalizing s with
  | nil => simp
  | cons i rest ih =>
    rw [List.foldl_cons, ih]
    simp only [connectReplacement, Module.connect, List.map_cons, List.append_assoc,
      List.singleton_append]
    rfl

/-- What replacing an input port does: a copy of its wire under a new name, and one connection
for each of its bits. -/
theorem replaceInput_module (e : Scene) (s : Insertion) (id : WireId) (w : Wire) :
    ∃ name n, name ∉ s.module.wires.map (·.name) ∧
      s.replaceInput e id w = { s with
        module := { s.module with
          wires := s.module.wires ++ [{ s.module.wire id with name }]
          connections := s.module.connections ++ (List.range w.width).map fun i =>
            ([copiedBit e s id i], [.wire s.module.wires.length i])
          nextNumber := n }
        replaced := s.replaced ++ [(id, s.module.wires.length)] } := by
  refine ⟨(s.module.freshName stem).1, (s.module.freshName stem).2.nextNumber,
    fun h => s.module.freshName_not_mem stem (List.mem_append_left _ h), ?_⟩
  simp only [replaceInput, Wire.foldPlaces_eq, foldl_connectReplacement]
  rfl

/-! ## One module after another -/

theorem grown_drive (e : Scene) (s : Insertion) (w : Wire) (index : Nat) (bit net : Bit) :
    s.module.Grown (drive e s w index bit net).module := by
  rw [(drive_spec e s w index bit net).1]
  exact grown_addParts _ _ _

theorem grown_replaceInput (e : Scene) (s : Insertion) (id : WireId) (w : Wire) :
    s.module.Grown (s.replaceInput e id w).module := by
  obtain ⟨name, n, -, he⟩ := replaceInput_module e s id w
  rw [he]
  exact ⟨rfl, rfl, rfl, List.prefix_append _ _, List.prefix_rfl, List.prefix_append _ _⟩

end Insertion

end Buffering

end ClockNet

import ClockNet.Proofs.Ports
import ClockNet.Proofs.Reading

/-! # Netlist text read back

A design that is written as text and read again is the design, with all modules, wires, cells,
connections and ports as they were and in their order (`parse_print`). Two things have no place in
the text: the directions recorded with cells, and the number for the next fresh name. Names must
be such as can be written, and texts, numbers and indices such as are read as they are written. -/

namespace ClockNet

/-! ## What a text says -/

/-- The cell without the recorded directions. -/
def Cell.asWritten (c : Cell) : Cell := { c with directions := .empty }

/-- The module without recorded directions, its fresh names not begun. -/
def Module.asWritten (m : Module) : Module :=
  { m with cells := m.cells.map Cell.asWritten, nextNumber := 1 }

def Design.asWritten (d : Design) : Design := ⟨d.modules.map Module.asWritten⟩

namespace Rtlil

/-! ## What can be written -/

/-- A text is read as it is written. The bits of a constant are counted by a signed word, as any
sequence in memory is. -/
def ValueLegible : Value → Prop
  | .const c => c.length < signedLimit
  | .text s => Unambiguous s.toList

instance (v : Value) : Decidable (ValueLegible v) := by
  cases v <;> unfold ValueLegible <;> infer_instance

def AttributesLegible (a : Attributes) : Prop := ∀ e ∈ a.entries, IsName e.1 ∧ ValueLegible e.2

instance (a : Attributes) : Decidable (AttributesLegible a) :=
  inferInstanceAs (Decidable (∀ e ∈ a.entries, _))

structure WireLegible (w : Wire) : Prop where
  name : IsName w.name
  attributes : AttributesLegible w.attributes
  numbered : w.Numbered

instance (w : Wire) : Decidable (WireLegible w) :=
  decidable_of_iff (IsName w.name ∧ AttributesLegible w.attributes ∧ w.Numbered)
    ⟨fun ⟨h₁, h₂, h₃⟩ => ⟨h₁, h₂, h₃⟩, fun h => ⟨h.1, h.2, h.3⟩⟩

structure CellLegible (c : Cell) : Prop where
  name : IsName c.name
  type : IsName c.type
  parameters : AttributesLegible c.parameters
  attributes : AttributesLegible c.attributes
  ports : ∀ e ∈ c.ports.entries, IsName e.1 ∧ e.2.length < signedLimit

instance (c : Cell) : Decidable (CellLegible c) :=
  decidable_of_iff (IsName c.name ∧ IsName c.type ∧ AttributesLegible c.parameters ∧
      AttributesLegible c.attributes ∧
      ∀ e ∈ c.ports.entries, IsName e.1 ∧ e.2.length < signedLimit)
    ⟨fun ⟨h₁, h₂, h₃, h₄, h₅⟩ => ⟨h₁, h₂, h₃, h₄, h₅⟩,
      fun h => ⟨h.1, h.2, h.3, h.4, h.5⟩⟩

/-- Everything in the module has a spelling that is read back. The lengths are those of sequences
in memory. -/
structure ModuleLegible (m : Module) : Prop where
  name : IsName m.name
  attributes : AttributesLegible m.attributes
  wires : ∀ w ∈ m.wires, WireLegible w
  cells : ∀ c ∈ m.cells, CellLegible c
  connections : ∀ c ∈ m.connections, c.1.length < signedLimit
  count : m.wires.length < signedLimit

instance (m : Module) : Decidable (ModuleLegible m) :=
  decidable_of_iff (IsName m.name ∧ AttributesLegible m.attributes ∧
      (∀ w ∈ m.wires, WireLegible w) ∧ (∀ c ∈ m.cells, CellLegible c) ∧
      (∀ c ∈ m.connections, c.1.length < signedLimit) ∧ m.wires.length < signedLimit)
    ⟨fun ⟨h₁, h₂, h₃, h₄, h₅, h₆⟩ => ⟨h₁, h₂, h₃, h₄, h₅, h₆⟩,
      fun h => ⟨h.1, h.2, h.3, h.4, h.5, h.6⟩⟩

section
variable (lastLine : Nat)

/-! ## Modules with the same wires -/

theorem signalGroups_congr {m p : Module} (h : p.wires = m.wires) :
    signalGroups p = signalGroups m := by
  have hwire : p.wire = m.wire := by
    funext id
    simp [Module.wire, h]
  have hchunk : chunkGroups p = chunkGroups m := by
    funext s
    unfold chunkGroups
    rw [hwire]
  funext s
  unfold signalGroups
  rw [hchunk]

theorem cellLines_congr {m p : Module} (h : p.wires = m.wires) : cellLines p = cellLines m := by
  funext c
  unfold cellLines
  rw [signalGroups_congr h]

theorem connectionLine_congr {m p : Module} (h : p.wires = m.wires) :
    connectionLine p = connectionLine m := by
  funext c
  unfold connectionLine
  rw [signalGroups_congr h]

theorem hasBit_congr {m p : Module} (h : p.wires = m.wires) : p.HasBit = m.HasBit := by
  funext b
  cases b with
  | const t => rfl
  | wire id place => simp [Module.HasBit, Module.wire, h]

theorem renumberPorts_congr {m p : Module} (h : p.wires = m.wires) : p.renumberPorts =
    { p with wires := m.renumberPorts.wires, ports := m.renumberPorts.ports } := by
  have hports : p.sortedPorts = m.sortedPorts := by
    simp [Module.sortedPorts, Module.wireIds, Module.wire, h]
  simp [Module.renumberPorts, hports, h]

/-! ## Cells and connections -/

theorem moduleBody_cellLines {p : Module} (hp : p.Indexed) {c : Cell}
    (hnew : c.name ∉ p.cells.map (·.name)) (hbits : ∀ e ∈ c.ports.entries, ∀ b ∈ e.2, p.HasBit b)
    (line : Nat) (ts : List Located) :
    moduleBody lastLine p .empty (locateLines line (cellLines p c) ++ ts) =
      moduleBody lastLine (p.addCell c.asWritten) .empty ts := by
  have hfind : p.findCell c.name = none := Module.findCell_eq_none.mpr hnew
  have hlines : cellLines p c = attributeLines 2 c.attributes ++
      ([.ofTokens 2 [.word "cell", .name c.type, .name c.name]] ++
        (parameterLines c.parameters.entries ++ (portLines p c.ports.entries ++
          [.ofTokens 2 [.word "end"]]))) := by
    simp [cellLines, parameterLines, portLines]
  have hbody : ∀ line line' line'', cellBody lastLine p
      { name := c.name, type := c.type, attributes := c.attributes }
      (locateLines line (parameterLines c.parameters.entries) ++
        (locateLines line' (portLines p c.ports.entries) ++ ⟨.word "end", line''⟩ :: ts)) =
      .ok (c.asWritten, ts) := by
    intro line line' line''
    rw [cellBody_parameterLines, cellBody_portLines lastLine hp _ hbits _
      (apart_cons.mpr (by simp)), cellBody, SortedTable.foldl_insert_entries,
      OrderedTable.foldl_set_entries]
    rfl
  rw [hlines]
  simp only [locateLines_append, locateLines_single, List.append_assoc]
  rw [moduleBody_attributeLines, SortedTable.foldl_insert_entries]
  simp only [locate_cons, locate_nil, List.cons_append, List.nil_append]
  rw [moduleBody, Text.andThen_eq_bind]
  simp [cell, identifier, hfind, hbody, bind, Except.bind]

theorem moduleBody_cells {m p : Module} (hm : m.Indexed) (hwires : p.wires = m.wires)
    {cs : List Cell} (hbits : ∀ c ∈ cs, ∀ e ∈ c.ports.entries, ∀ b ∈ e.2, m.HasBit b)
    (hn : ((p.cells ++ cs).map (·.name)).Nodup) (line : Nat) (ts : List Located) :
    moduleBody lastLine p .empty (locateLines line (cs.flatMap (cellLines m)) ++ ts) =
      moduleBody lastLine { p with cells := p.cells ++ cs.map Cell.asWritten } .empty ts := by
  induction cs generalizing p line with
  | nil => simp [locateLines]
  | cons c cs ih =>
    have hp : p.Indexed := ⟨hwires ▸ hm.names, hwires ▸ hm.numbered⟩
    have hnew : c.name ∉ p.cells.map (·.name) := not_mem_before hn
    have hown : ∀ e ∈ c.ports.entries, ∀ b ∈ e.2, p.HasBit b := by
      rw [hasBit_congr hwires]
      exact hbits c List.mem_cons_self
    rw [List.flatMap_cons, locateLines_append, List.append_assoc, ← cellLines_congr hwires,
      moduleBody_cellLines lastLine hp hnew hown, cellLines_congr hwires, ih]
    · simp [Module.addCell]
    · exact hwires
    · exact fun c hc => hbits c (List.mem_cons_of_mem _ hc)
    · simpa [Module.addCell, Cell.asWritten] using hn

theorem moduleBody_connectionLine {p : Module} (hp : p.Indexed) {c : Signal × Signal}
    (hbits : ∀ b ∈ c.1 ++ c.2, p.HasBit b) (hlen : c.1.length = c.2.length)
    (line : Nat) {ts : List Located} (hts : Apart ts) :
    moduleBody lastLine p .empty (locate line (connectionLine p c).groups.flatten ++ ts) =
      moduleBody lastLine (p.connect c.1 c.2) .empty ts := by
  have hfirst := signal_signalGroups lastLine line hp
    (fun b hb => hbits b (List.mem_append_left _ hb)) (apart_signalGroups (m := p) line c.2 ts)
  have hsecond := signal_signalGroups lastLine line hp
    (fun b hb => hbits b (List.mem_append_right _ hb)) hts
  simp only [connectionLine, List.flatten_append, List.flatten_cons, locate_append, locate_cons,
    List.cons_append, List.nil_append, List.append_assoc]
  rw [moduleBody, Text.andThen_eq_bind]
  simp [connection, hfirst, hsecond, Module.connect?, hlen, bind, Except.bind]

theorem moduleBody_connections {m p : Module} (hm : m.Indexed) (hwires : p.wires = m.wires)
    {cs : List (Signal × Signal)} (hbits : ∀ c ∈ cs, ∀ b ∈ c.1 ++ c.2, m.HasBit b)
    (hlen : ∀ c ∈ cs, c.1.length = c.2.length) (line : Nat) {ts : List Located} (hts : Apart ts) :
    moduleBody lastLine p .empty (locateLines line (cs.map (connectionLine m)) ++ ts) =
      moduleBody lastLine { p with connections := p.connections ++ cs } .empty ts := by
  induction cs generalizing p line with
  | nil => simp [locateLines]
  | cons c cs ih =>
    have hp : p.Indexed := ⟨hwires ▸ hm.names, hwires ▸ hm.numbered⟩
    have hown : ∀ b ∈ c.1 ++ c.2, p.HasBit b := by
      rw [hasBit_congr hwires]
      exact hbits c List.mem_cons_self
    have hrest : Apart (locateLines (line + 1) (cs.map (connectionLine m)) ++ ts) := by
      refine apart_locateLines ?_ _ hts
      intro l hl
      obtain ⟨c, -, rfl⟩ := List.mem_map.mp hl
      exact ⟨"connect", rfl⟩
    rw [List.map_cons, locateLines_cons, List.append_assoc, ← connectionLine_congr hwires,
      moduleBody_connectionLine lastLine hp hown (hlen c List.mem_cons_self) line
        (connectionLine_congr hwires ▸ hrest), connectionLine_congr hwires, ih]
    · simp [Module.connect]
    · exact hwires
    · exact fun c hc => hbits c (List.mem_cons_of_mem _ hc)
    · exact fun c hc => hlen c (List.mem_cons_of_mem _ hc)

/-! ## Modules -/

theorem indexed_of_legible {m : Module} (hw : m.WellFormed) (hl : ModuleLegible m) : m.Indexed :=
  ⟨hw.wires_nodup, fun w hmem => (hl.wires w hmem).numbered⟩

theorem position_of_not_port {m : Module} (hp : m.PortsNumbered) {w : Wire} (hw : w ∈ m.wires)
    (hport : w.isPort = false) : w.position = 0 := by
  obtain ⟨id, hid, rfl⟩ := List.getElem_of_mem hw
  have hpos := ((Module.portsNumbered_iff.mp hp).2.2 id hid).2
  rw [Module.wire_eq_getElem hid, hport] at hpos
  exact hpos

/-- The ports of a module need no lines of their own: they are found again from the wires. -/
theorem renumberPorts_asWritten {m : Module} (hp : m.PortsNumbered) :
    Module.renumberPorts { m.asWritten with ports := [] } = m.asWritten := by
  have hsame : m.renumberPorts = m := hp
  rw [renumberPorts_congr (m := m) (p := { m.asWritten with ports := [] }) rfl, hsame]
  rfl

theorem module_moduleLines {m : Module} (hm : m.Indexed) (hw : m.WellFormed) (hp : m.PortsNumbered)
    {d : Design} (hnew : m.name ∉ d.modules.map (·.name)) (line : Nat) (ts : List Located) :
    designBody lastLine d .empty (locateLines line (moduleLines m) ++ ts) =
      designBody lastLine (d.add m.asWritten) .empty ts := by
  have hfind : d.find? m.name = none := by
    rw [Design.find?, List.find?_eq_none]
    intro m' hm'
    have hne : m'.name ≠ m.name := fun he => hnew (he ▸ List.mem_map_of_mem hm')
    simpa using hne
  have hbody : ∀ line line' line'' line''',
      moduleBody lastLine { name := m.name, attributes := m.attributes } .empty
        (locateLines line (m.wires.flatMap wireLines) ++
          (locateLines line' (m.cells.flatMap (cellLines m)) ++
            (locateLines line'' (m.connections.map (connectionLine m)) ++
              ⟨.word "end", line'''⟩ :: ts))) = .ok (m.asWritten, ts) := by
    intro line line' line'' line'''
    rw [moduleBody_wires, moduleBody_cells lastLine hm, moduleBody_connections lastLine hm]
    · rw [moduleBody]
      exact congrArg (fun p => Except.ok (p, ts)) (renumberPorts_asWritten hp)
    · rfl
    · exact hw.connection_bits
    · exact hw.connection_widths
    · exact apart_cons.mpr (by simp)
    · rfl
    · exact hw.cell_bits
    · exact hw.cells_nodup
    · exact fun w hmem => position_of_not_port hp hmem
    · exact hw.wires_nodup
  unfold moduleLines
  simp only [locateLines_append, locateLines_single, List.append_assoc]
  rw [designBody_attributeLines, SortedTable.foldl_insert_entries]
  simp only [locate_cons, locate_nil, List.cons_append, List.nil_append]
  rw [designBody, Text.andThen_eq_bind]
  simp [module, identifier, hfind, hbody, bind, Except.bind]

/-! ## Designs -/

theorem designBody_modules (ms : List Module) (d : Design)
    (h : ∀ m ∈ ms, m.Indexed ∧ m.WellFormed ∧ m.PortsNumbered)
    (hn : ((d.modules ++ ms).map (·.name)).Nodup) (line : Nat) :
    designBody lastLine d .empty
      (locateLines line (([⟨0, []⟩] : List Line).intercalate (ms.map moduleLines))) =
      .ok ⟨d.modules ++ ms.map Module.asWritten⟩ := by
  induction ms generalizing d line with
  | nil => simp [locateLines, designBody]
  | cons m ms ih =>
    obtain ⟨hm, hw, hp⟩ := h m List.mem_cons_self
    have hnew : m.name ∉ d.modules.map (·.name) := not_mem_before hn
    have hrest := ih (d.add m.asWritten) (fun m hm => h m (List.mem_cons_of_mem _ hm))
      (by simpa [Design.add, Module.asWritten] using hn)
    have hadd : (d.add m.asWritten).modules ++ ms.map Module.asWritten =
        d.modules ++ (m :: ms).map Module.asWritten := by
      simp [Design.add]
    cases ms with
    | nil =>
      have hone : ([⟨0, []⟩] : List Line).intercalate ([m].map moduleLines) = moduleLines m := by
        simp
      have hread := module_moduleLines lastLine hm hw hp hnew line []
      rw [List.append_nil] at hread
      rw [hone, hread, ← hadd]
      simp [designBody]
    | cons m' ms =>
      rw [List.map_cons, List.map_cons, List.intercalate_cons_cons, List.append_assoc,
        locateLines_append, module_moduleLines lastLine hm hw hp hnew, ← hadd, ← hrest]
      rfl

end

/-! ## Legible lines -/

theorem legible_ofTokens {indent : Nat} {tokens : List Token} (h : ∀ t ∈ tokens, t.Legible) :
    (Line.ofTokens indent tokens).Legible := by
  intro g hg
  obtain ⟨t, ht, rfl⟩ := List.mem_map.mp hg
  exact groupLegible_single (h t ht)

theorem legible_valueToken {v : Value} (h : ValueLegible v) : (valueToken v).Legible := by
  cases v with
  | text s => exact h
  | const c =>
    have hconst : Token.Legible (.const c) := h
    cases hn : c.toNat? with
    | none => simpa [valueToken, hn] using hconst
    | some n =>
      by_cases hsmall : c.length = 32 ∧ n < 0x80000000
      · have hint : Token.Legible (.int n) := by
          have hlt := hsmall.2
          simp only [Token.Legible, Int.natAbs_natCast, signedLimit]
          omega
        simpa [valueToken, hn, hsmall] using hint
      · simpa [valueToken, hn, hsmall] using hconst

def keywords : List String :=
  ["attribute", "cell", "connect", "end", "inout", "input", "module", "offset", "output",
    "parameter", "signed", "upto", "width", "wire"]

theorem legible_keyword : ∀ letters ∈ keywords, Token.Legible (.word letters) := by
  show ∀ letters ∈ keywords, IsWord letters
  decide

theorem legible_binding {a : Attributes} (h : AttributesLegible a) {keyword : String}
    (hk : keyword ∈ keywords) (indent : Nat) : ∀ e ∈ a.entries,
      (Line.ofTokens indent [.word keyword, .name e.1, valueToken e.2]).Legible := by
  intro e he
  refine legible_ofTokens ?_
  simp only [List.forall_mem_cons]
  exact ⟨legible_keyword keyword hk, (h e he).1, legible_valueToken (h e he).2, by simp⟩

theorem legible_attributeLines {a : Attributes} (h : AttributesLegible a) (indent : Nat) :
    ∀ l ∈ attributeLines indent a, l.Legible := by
  intro l hl
  obtain ⟨e, he, rfl⟩ := List.mem_map.mp hl
  exact legible_binding h (by decide) indent e he

theorem legible_wireOptions {w : Wire} (hw : w.Numbered) (hpos : w.position < signedLimit) :
    ∀ t ∈ wireOptions w, t.Legible := by
  have hword := legible_keyword
  simp only [keywords, List.forall_mem_cons] at hword
  have hwidth : Token.Legible (.int w.width) := hw.width
  have hoffset : Token.Legible (.int w.offset) := by
    have hlower := hw.lower
    have hupper := hw.upper
    show w.offset.natAbs < signedLimit
    omega
  have hposition : Token.Legible (.int w.position) := hpos
  unfold wireOptions
  simp only [List.forall_mem_append]
  refine ⟨⟨⟨⟨?_, ?_⟩, ?_⟩, ?_⟩, ?_⟩
  all_goals split
  all_goals simp [hword, hwidth, hoffset, hposition]

theorem legible_wireLines {w : Wire} (h : WireLegible w) (hpos : w.position < signedLimit) :
    ∀ l ∈ wireLines w, l.Legible := by
  have hwire := legible_keyword "wire" (by decide)
  have hoptions := legible_wireOptions h.numbered hpos
  have hname : Token.Legible (.name w.name) := h.name
  unfold wireLines
  simp only [List.forall_mem_append, List.forall_mem_singleton]
  refine ⟨legible_attributeLines h.attributes 2, legible_ofTokens ?_⟩
  simp only [List.cons_append, List.forall_mem_cons, List.forall_mem_append]
  exact ⟨hwire, hoptions, hname, by simp⟩

section
variable {m : Module} (hm : m.Indexed) (hnames : ∀ w ∈ m.wires, IsName w.name)
include hm hnames

theorem legible_cellLines {c : Cell} (h : CellLegible c)
    (hbits : ∀ e ∈ c.ports.entries, ∀ b ∈ e.2, m.HasBit b) :
    ∀ l ∈ cellLines m c, l.Legible := by
  have hcell := legible_keyword "cell" (by decide)
  have hend := legible_keyword "end" (by decide)
  have hconnect := legible_keyword "connect" (by decide)
  have htype : Token.Legible (.name c.type) := h.type
  have hname : Token.Legible (.name c.name) := h.name
  unfold cellLines
  simp only [List.forall_mem_append, List.forall_mem_singleton]
  refine ⟨⟨⟨⟨legible_attributeLines h.attributes 2, legible_ofTokens ?_⟩, ?_⟩, ?_⟩,
    legible_ofTokens (by simpa using hend)⟩
  · simp [hcell, htype, hname]
  · intro l hl
    obtain ⟨e, he, rfl⟩ := List.mem_map.mp hl
    exact legible_binding h.parameters (by decide) 4 e he
  · intro l hl
    obtain ⟨e, he, rfl⟩ := List.mem_map.mp hl
    obtain ⟨hport, hlen⟩ := h.ports e he
    intro g hg
    simp only [List.mem_append, List.mem_cons, List.not_mem_nil, or_false] at hg
    rcases hg with (rfl | rfl) | hg
    · exact groupLegible_single hconnect
    · exact groupLegible_single hport
    · exact groupLegible_signal hm hnames (hbits e he) hlen g hg

theorem legible_connectionLine {c : Signal × Signal} (hbits : ∀ b ∈ c.1 ++ c.2, m.HasBit b)
    (hwidth : c.1.length = c.2.length) (hlen : c.1.length < signedLimit) :
    (connectionLine m c).Legible := by
  have hconnect := legible_keyword "connect" (by decide)
  intro g hg
  simp only [connectionLine, List.mem_append, List.mem_singleton] at hg
  rcases hg with (rfl | hg) | hg
  · exact groupLegible_single hconnect
  · exact groupLegible_signal hm hnames (fun b hb => hbits b (List.mem_append_left _ hb)) hlen g hg
  · exact groupLegible_signal hm hnames (fun b hb => hbits b (List.mem_append_right _ hb))
      (hwidth ▸ hlen) g hg

end

theorem position_lt {m : Module} (hp : m.PortsNumbered) (hl : ModuleLegible m) {w : Wire}
    (hw : w ∈ m.wires) : w.position < signedLimit := by
  obtain ⟨hn, hlt, hwire⟩ := Module.portsNumbered_iff.mp hp
  obtain ⟨id, hid, rfl⟩ := List.getElem_of_mem hw
  obtain ⟨hmem, hpos⟩ := hwire id hid
  have hcount := hl.count
  rw [Module.wire_eq_getElem hid] at hmem hpos
  rw [hpos]
  split
  · rename_i hport
    have hidx := List.idxOf_lt_length_iff.mpr (hmem.mpr hport)
    have hsub : m.ports ⊆ List.range m.wires.length := fun id hid =>
      List.mem_range.mpr (hlt id hid)
    have hle := (hn.subperm hsub).length_le
    rw [List.length_range] at hle
    omega
  · unfold signedLimit
    omega

theorem legible_moduleLines {m : Module} (hw : m.WellFormed) (hp : m.PortsNumbered)
    (hl : ModuleLegible m) : ∀ l ∈ moduleLines m, l.Legible := by
  have hm := indexed_of_legible hw hl
  have hnames : ∀ w ∈ m.wires, IsName w.name := fun w hw => (hl.wires w hw).name
  have hmodule := legible_keyword "module" (by decide)
  have hend := legible_keyword "end" (by decide)
  have hname : Token.Legible (.name m.name) := hl.name
  unfold moduleLines
  simp only [List.forall_mem_append, List.forall_mem_singleton, List.forall_mem_flatMap,
    List.forall_mem_map]
  refine ⟨⟨⟨⟨⟨legible_attributeLines hl.attributes 0, legible_ofTokens ?_⟩, ?_⟩, ?_⟩, ?_⟩,
    legible_ofTokens (by simpa using hend)⟩
  · simp [hmodule, hname]
  · intro w hw
    exact legible_wireLines (hl.wires w hw) (position_lt hp hl hw)
  · intro c hc
    exact legible_cellLines hm hnames (hl.cells c hc) (hw.cell_bits c hc)
  · intro c hc
    exact legible_connectionLine hm hnames (hw.connection_bits c hc) (hw.connection_widths c hc)
      (hl.connections c hc)

theorem legible_modules {ms : List Module} (h : ∀ m ∈ ms, ∀ l ∈ moduleLines m, l.Legible) :
    ∀ l ∈ ([⟨0, []⟩] : List Line).intercalate (ms.map moduleLines), l.Legible := by
  induction ms with
  | nil => simp
  | cons m ms ih =>
    have hrest := ih fun m hm => h m (List.mem_cons_of_mem _ hm)
    cases ms with
    | nil => simpa using h m List.mem_cons_self
    | cons m' ms =>
      have hempty : Line.Legible ⟨0, []⟩ := fun g hg => by cases hg
      rw [List.map_cons, List.map_cons, List.intercalate_cons_cons]
      simp only [List.forall_mem_append, List.forall_mem_singleton]
      exact ⟨⟨h m List.mem_cons_self, hempty⟩, hrest⟩

/-! ## The round trip -/

/-- Reading what is written gives the design back, but for recorded directions and the number of
the next fresh name. -/
theorem parse_print {d : Design} (hw : d.WellFormed) (hp : d.PortsNumbered)
    (hl : ∀ m ∈ d.modules, ModuleLegible m) : parse (print d) = .ok d.asWritten := by
  have hlines : ∀ l ∈ designLines d, l.Legible := legible_modules fun m hm =>
    legible_moduleLines (hw.modules m hm) (hp m hm) (hl m hm)
  have hmodules : ∀ m ∈ d.modules, m.Indexed ∧ m.WellFormed ∧ m.PortsNumbered := fun m hm =>
    ⟨indexed_of_legible (hw.modules m hm) (hl m hm), hw.modules m hm, hp m hm⟩
  have hread := designBody_modules (lastLineOf (locateLines 1 (designLines d))) d.modules {}
    hmodules hw.names_nodup 1
  unfold parse print
  rw [tokens_lines hlines]
  exact hread

/-- Names with a backslash and with a dollar sign, a wire without bits, one that counts down from
a negative index, a text with controls in it, constants that are no numbers, and signals of
several parts and of none. -/
def crossing : Module :=
  { name := "\\top"
    attributes := SortedTable.empty.insert "note" (.text "a\"b\\\n\x07c 7")
    wires := [{ name := "$a", width := 4, offset := -2, upto := true, isInput := true
                position := 2 },
              { name := "\\b", width := 0, offset := 5, signed := true },
              { name := "c", width := 3, isInput := true, isOutput := true, position := 1
                attributes := SortedTable.empty.insert "keep" (.ofBool true) }]
    cells := [{ name := "u", type := "LUT"
                parameters := (SortedTable.empty.insert "INIT" (.const [.one, .unknown])).insert
                  "NONE" (.const [])
                ports := ((OrderedTable.empty.set "O" [.wire 2 0, .wire 2 1, .wire 2 2]).set "I"
                  [.wire 0 1, .wire 0 2, .const .one, .const .unknown, .wire 2 0]).set "N" []
                directions := SortedTable.empty.insert "O" .output }]
    connections := [([.wire 2 0, .wire 0 3], [.const .zero, .wire 0 0]), ([], [])]
    ports := [2, 0]
    nextNumber := 7 }

/-- The module is read back as it was, and only the recorded direction and the number are not. -/
theorem parse_print_crossing : Design.WellFormed ⟨[crossing]⟩ ∧ Design.PortsNumbered ⟨[crossing]⟩ ∧
    ModuleLegible crossing ∧ parse (print ⟨[crossing]⟩) = .ok ⟨[crossing.asWritten]⟩ := by
  have hw : Design.WellFormed ⟨[crossing]⟩ := by decide
  have hp : Design.PortsNumbered ⟨[crossing]⟩ := by decide
  have hl : ModuleLegible crossing := by decide
  exact ⟨hw, hp, hl, parse_print hw hp (by simpa using hl)⟩

/-- A wire without bits has no indices, but its offset is written. -/
def zeroWidth : Module :=
  { name := "top", wires := [{ name := "w", width := 0, offset := -0x8000000000000000 }] }

/-- All indices of the wire lie between the limits, but their number does not. -/
def halfRange : Module :=
  { name := "top", wires := [{ name := "w", width := 0x8000000000000000, offset := -1 }] }

/-- A well-formed module of wires alone, whose names can be written and whose indices all lie
strictly between the limits. -/
structure IndicesBetween (m : Module) : Prop where
  wellFormed : Design.WellFormed ⟨[m]⟩
  portsNumbered : Design.PortsNumbered ⟨[m]⟩
  name : IsName m.name
  bare : m.attributes = .empty ∧ m.cells = [] ∧ m.connections = []
  wires : ∀ w ∈ m.wires, IsName w.name ∧ w.attributes = .empty ∧
    ∀ i < w.width, -signedLimit < w.offset + i ∧ w.offset + i < signedLimit

theorem indicesBetween_zeroWidth : IndicesBetween zeroWidth := by
  refine ⟨by decide, by decide, by decide, by decide, ?_⟩
  intro w hw
  obtain rfl := List.mem_singleton.mp hw
  exact ⟨by decide, rfl, fun i hi => absurd hi (Nat.not_lt_zero i)⟩

theorem indicesBetween_halfRange : IndicesBetween halfRange := by
  refine ⟨by decide, by decide, by decide, by decide, ?_⟩
  intro w hw
  obtain rfl := List.mem_singleton.mp hw
  refine ⟨by decide, rfl, ?_⟩
  intro i hi
  unfold signedLimit
  dsimp only at hi ⊢
  omega

/-- Indices between the limits are not enough: the numbers on the line of a wire are its width and
its offset. -/
theorem not_read_back :
    IndicesBetween zeroWidth ∧ parse (print ⟨[zeroWidth]⟩) =
      .error ⟨2, .lexical (.invalidNumber "9223372036854775808")⟩ ∧
    IndicesBetween halfRange ∧ parse (print ⟨[halfRange]⟩) =
      .error ⟨2, .lexical (.invalidNumber "9223372036854775808")⟩ :=
  ⟨indicesBetween_zeroWidth, by cbv, indicesBetween_halfRange, by cbv⟩

end Rtlil

end ClockNet

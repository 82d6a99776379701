import ClockNet.Proofs.Signals
import ClockNet.Proofs.Tables

/-! # Lines read back

Each group of lines that a design is written as is read as what it was written for: options of
wires, attributes, wires, cells and connections. A module that is being read has the wires of the
module that was written by the time that signals are read, so both give wires the same names. -/

namespace ClockNet.Rtlil

/-- A line begins with a keyword. -/
def Line.Keyed (l : Line) : Prop := ∃ letters, l.groups.flatten.head? = some (.word letters)

section
variable (lastLine : Nat)

theorem groups_ofTokens (indent : Nat) (tokens : List Token) :
    (Line.ofTokens indent tokens).groups.flatten = tokens := by
  simp [Line.ofTokens, List.flatten_eq_flatMap, List.flatMap_map]

theorem locateLines_cons (line : Nat) (l : Line) (ls : List Line) : locateLines line (l :: ls) =
    locate line l.groups.flatten ++ locateLines (line + 1) ls := rfl

theorem locateLines_single (line indent : Nat) (tokens : List Token) :
    locateLines line [Line.ofTokens indent tokens] = locate line tokens := by
  simp [locateLines, groups_ofTokens]

/-- Lines that begin with keywords can stand behind a signal. -/
theorem apart_locateLines {ls : List Line} (h : ∀ l ∈ ls, l.Keyed) (line : Nat)
    {ts : List Located} (hts : Apart ts) : Apart (locateLines line ls ++ ts) := by
  cases ls with
  | nil => exact hts
  | cons l ls =>
    obtain ⟨letters, hl⟩ := h l List.mem_cons_self
    obtain ⟨tokens, htokens⟩ := List.head?_eq_some_iff.mp hl
    rw [locateLines_cons, htokens]
    exact apart_cons.mpr (by simp)

/-! ## Wires -/

theorem natural_ofNat (n line : Nat) (ts : List Located) :
    natural lastLine (⟨.int n, line⟩ :: ts) = .ok (n, ts) := by
  have hneg : ¬ (n : Int) < 0 := by omega
  simp [natural, integer, bind, Except.bind, hneg]

section
variable (line : Nat) (ts : List Located) (w start : Wire)

theorem wireShape_width (h : start.width = 1) : wireShape lastLine start
      (locate line (if w.width = 1 then [] else [.word "width", .int w.width]) ++ ts) =
    wireShape lastLine { start with width := w.width } ts := by
  split
  · rename_i hone
    rw [hone, ← h]
    rfl
  · simp only [locate_cons, locate_nil, List.cons_append, List.nil_append]
    rw [wireShape, Text.andThen_eq_bind, natural_ofNat]
    rfl

theorem wireShape_upto (h : start.upto = false) : wireShape lastLine start
      (locate line (if w.upto then [.word "upto"] else []) ++ ts) =
    wireShape lastLine { start with upto := w.upto } ts := by
  cases hw : w.upto with
  | true =>
    simp only [if_true, locate_cons, locate_nil, List.cons_append, List.nil_append]
    rw [wireShape]
  | false =>
    show wireShape lastLine start ts = wireShape lastLine { start with upto := false } ts
    rw [← h]

theorem wireShape_offset (h : start.offset = 0) : wireShape lastLine start
      (locate line (if w.offset = 0 then [] else [.word "offset", .int w.offset]) ++ ts) =
    wireShape lastLine { start with offset := w.offset } ts := by
  split
  · rename_i hzero
    rw [hzero, ← h]
    rfl
  · simp only [locate_cons, locate_nil, List.cons_append, List.nil_append]
    rw [wireShape, Text.andThen_eq_bind]
    rfl

/-- A wire that is no port has no position to be written. -/
theorem wireShape_direction (hi : start.isInput = false) (ho : start.isOutput = false)
    (hs : start.position = 0) (hw : w.isPort = false → w.position = 0) :
    wireShape lastLine start
      (locate line (match w.direction with
        | some .inout => [.word "inout", .int w.position]
        | some .input => [.word "input", .int w.position]
        | some .output => [.word "output", .int w.position]
        | none => []) ++ ts) =
    wireShape lastLine { start with
      isInput := w.isInput, isOutput := w.isOutput, position := w.position } ts := by
  cases hin : w.isInput with
  | true =>
    cases hout : w.isOutput with
    | true =>
      simp only [Wire.direction, Direction.ofFlags, hin, hout, locate_cons, locate_nil,
        List.cons_append, List.nil_append]
      rw [wireShape, Text.andThen_eq_bind, natural_ofNat]
      rfl
    | false =>
      simp only [Wire.direction, Direction.ofFlags, hin, hout, locate_cons, locate_nil,
        List.cons_append, List.nil_append]
      rw [wireShape, Text.andThen_eq_bind, natural_ofNat, ← ho]
      rfl
  | false =>
    cases hout : w.isOutput with
    | true =>
      simp only [Wire.direction, Direction.ofFlags, hin, hout, locate_cons, locate_nil,
        List.cons_append, List.nil_append]
      rw [wireShape, Text.andThen_eq_bind, natural_ofNat, ← hi]
      rfl
    | false =>
      have hport : w.isPort = false := by simp [Wire.isPort, hin, hout]
      have hstart : { start with isInput := false, isOutput := false, position := 0 } = start := by
        cases start
        simp_all
      simp only [Wire.direction, Direction.ofFlags, hin, hout, locate_nil, List.nil_append,
        hw hport, hstart]

theorem wireShape_signed (h : start.signed = false) : wireShape lastLine start
      (locate line (if w.signed then [.word "signed"] else []) ++ ts) =
    wireShape lastLine { start with signed := w.signed } ts := by
  cases hw : w.signed with
  | true =>
    simp only [if_true, locate_cons, locate_nil, List.cons_append, List.nil_append]
    rw [wireShape]
  | false =>
    show wireShape lastLine start ts = wireShape lastLine { start with signed := false } ts
    rw [← h]

theorem wireShape_name (name : String) :
    wireShape lastLine start (⟨.name name, line⟩ :: ts) =
      .ok (start, ⟨.name name, line⟩ :: ts) := by
  rw [wireShape] <;> simp

end

/-- The options of a wire are read up to its name. -/
theorem wireShape_wireOptions (line : Nat) {w : Wire} (hw : w.isPort = false → w.position = 0)
    (name : String) (attributes : Attributes) (ts : List Located) :
    wireShape lastLine { name := "", width := 1, attributes }
      (locate line (wireOptions w) ++ ⟨.name name, line⟩ :: ts) =
    .ok ({ w with name := "", attributes }, ⟨.name name, line⟩ :: ts) := by
  unfold wireOptions
  simp only [locate_append, List.append_assoc]
  rw [wireShape_width, wireShape_upto, wireShape_offset]
  · refine (wireShape_direction lastLine line _ w _ rfl rfl rfl hw).trans ?_
    rw [wireShape_signed, wireShape_name]
    rfl
  all_goals rfl

theorem wire_wireOptions (line : Nat) {w : Wire} (hw : w.isPort = false → w.position = 0)
    {m : Module} (hnew : m.findWire w.name = none) (ts : List Located) :
    wire lastLine m w.attributes
      (locate line (wireOptions w) ++ ⟨.name w.name, line⟩ :: ts) = .ok (m.addWire w, ts) := by
  simp [wire, wireShape_wireOptions lastLine line hw, identifier, bind, Except.bind,
    Module.addWire?, hnew]

/-! ## Attributes -/

theorem moduleBody_attributeLines (m : Module) (pending a : Attributes) (line indent : Nat)
    (ts : List Located) :
    moduleBody lastLine m pending (locateLines line (attributeLines indent a) ++ ts) =
      moduleBody lastLine m (a.entries.foldl (fun a e => a.insert e.1 e.2) pending) ts := by
  unfold attributeLines
  induction a.entries generalizing pending line with
  | nil => rfl
  | cons e entries ih =>
    rw [List.map_cons, locateLines_cons, groups_ofTokens, List.append_assoc]
    simp only [locate_cons, locate_nil, List.cons_append, List.nil_append]
    rw [moduleBody, Text.andThen_eq_bind, binding_valueToken]
    exact ih _ _

theorem designBody_attributeLines (d : Design) (pending a : Attributes) (line indent : Nat)
    (ts : List Located) :
    designBody lastLine d pending (locateLines line (attributeLines indent a) ++ ts) =
      designBody lastLine d (a.entries.foldl (fun a e => a.insert e.1 e.2) pending) ts := by
  unfold attributeLines
  induction a.entries generalizing pending line with
  | nil => rfl
  | cons e entries ih =>
    rw [List.map_cons, locateLines_cons, groups_ofTokens, List.append_assoc]
    simp only [locate_cons, locate_nil, List.cons_append, List.nil_append]
    rw [designBody, Text.andThen_eq_bind, binding_valueToken]
    exact ih _ _

/-! ## Wires of a module -/

theorem moduleBody_wireLines {m : Module} {w : Wire} (hw : w.isPort = false → w.position = 0)
    (hnew : w.name ∉ m.wires.map (·.name)) (line : Nat) (ts : List Located) :
    moduleBody lastLine m .empty (locateLines line (wireLines w) ++ ts) =
      moduleBody lastLine (m.addWire w) .empty ts := by
  have hfind : m.findWire w.name = none := Module.findWire_eq_none.mpr hnew
  unfold wireLines
  rw [locateLines_append, List.append_assoc, moduleBody_attributeLines,
    SortedTable.foldl_insert_entries, locateLines_single, List.cons_append, locate_cons,
    locate_append, List.cons_append, List.append_assoc]
  simp only [locate_cons, locate_nil, List.cons_append, List.nil_append]
  rw [moduleBody, Text.andThen_eq_bind, wire_wireOptions lastLine _ hw hfind]
  rfl

/-- The wires of a module are added one after another. -/
theorem moduleBody_wires {m : Module} {ws : List Wire}
    (hports : ∀ w ∈ ws, w.isPort = false → w.position = 0)
    (hn : ((m.wires ++ ws).map (·.name)).Nodup) (line : Nat) (ts : List Located) :
    moduleBody lastLine m .empty (locateLines line (ws.flatMap wireLines) ++ ts) =
      moduleBody lastLine { m with wires := m.wires ++ ws } .empty ts := by
  induction ws generalizing m line with
  | nil => simp [locateLines]
  | cons w ws ih =>
    have hnew : w.name ∉ m.wires.map (·.name) := not_mem_before hn
    rw [List.flatMap_cons, locateLines_append, List.append_assoc,
      moduleBody_wireLines lastLine (hports w List.mem_cons_self) hnew,
      ih (fun w hw => hports w (List.mem_cons_of_mem _ hw)) (by simpa [Module.addWire] using hn)]
    simp [Module.addWire]

/-! ## Cells -/

theorem portConnection_signalGroups {m : Module} (hm : m.Indexed) (port : String) {s : Signal}
    (hbits : ∀ b ∈ s, m.HasBit b) (line : Nat) {ts : List Located} (hts : Apart ts) :
    portConnection lastLine m
      (⟨.name port, line⟩ :: (locate line (signalGroups m s).flatten ++ ts)) =
      .ok ((port, s), ts) := by
  simp [portConnection, identifier, signal_signalGroups lastLine line hm hbits hts, bind,
    Except.bind]

/-- The lines of the parameters of a cell. -/
def parameterLines (entries : List (String × Value)) : List Line :=
  entries.map fun e => .ofTokens 4 [.word "parameter", .name e.1, valueToken e.2]

/-- The lines of the connected ports of a cell. -/
def portLines (m : Module) (entries : List (String × Signal)) : List Line :=
  entries.map fun e => ⟨4, [[.word "connect"], [.name e.1]] ++ signalGroups m e.2⟩

theorem cellBody_parameterLines (m : Module) (c : Cell) (entries : List (String × Value))
    (line : Nat) (ts : List Located) :
    cellBody lastLine m c (locateLines line (parameterLines entries) ++ ts) =
      cellBody lastLine m { c with
        parameters := entries.foldl (fun a e => a.insert e.1 e.2) c.parameters } ts := by
  unfold parameterLines
  induction entries generalizing c line with
  | nil => rfl
  | cons e entries ih =>
    rw [List.map_cons, locateLines_cons, groups_ofTokens, List.append_assoc]
    simp only [locate_cons, locate_nil, List.cons_append, List.nil_append]
    rw [cellBody, Text.andThen_eq_bind, List.dropWhile_cons_of_neg (by simp [isNumberType]),
      binding_valueToken]
    exact ih _ _

theorem keyed_portLines (m : Module) (entries : List (String × Signal)) :
    ∀ l ∈ portLines m entries, l.Keyed := by
  intro l hl
  obtain ⟨e, -, rfl⟩ := List.mem_map.mp hl
  exact ⟨"connect", rfl⟩

theorem cellBody_portLines {m : Module} (hm : m.Indexed) (c : Cell)
    {entries : List (String × Signal)} (hbits : ∀ e ∈ entries, ∀ b ∈ e.2, m.HasBit b)
    (line : Nat) {ts : List Located} (hts : Apart ts) :
    cellBody lastLine m c (locateLines line (portLines m entries) ++ ts) =
      cellBody lastLine m { c with
        ports := entries.foldl (fun t e => t.set e.1 e.2) c.ports } ts := by
  induction entries generalizing c line with
  | nil => rfl
  | cons e entries ih =>
    have hrest : ∀ line, Apart (locateLines line (portLines m entries) ++ ts) := fun line =>
      apart_locateLines (keyed_portLines m entries) line hts
    show cellBody lastLine m c (locate line
      ([Token.word "connect"] ++ ([Token.name e.1] ++ (signalGroups m e.2).flatten)) ++
        locateLines (line + 1) (portLines m entries) ++ ts) = _
    simp only [List.cons_append, List.nil_append, locate_cons, List.append_assoc]
    rw [cellBody, Text.andThen_eq_bind, portConnection_signalGroups lastLine hm e.1
      (hbits e List.mem_cons_self) line (hrest _)]
    exact ih _ (fun e he => hbits e (List.mem_cons_of_mem _ he)) _

end

end ClockNet.Rtlil

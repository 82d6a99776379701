import ClockNet.Proofs.Drafts
import ClockNet.Proofs.Interchange
import Mathlib

/-! # Designs that have been read

A module that has been read is already put together from its nets: its connections tie every bit to
the home of its net, its signals are homes, and its values are as they are read again
(`rebuilt_of_imported`). Writing and reading it once more gives it back, with a new counter for
fresh names and with the directions that follow from the design (`importDesign_fixed`). -/

namespace ClockNet.NetlistJson

/-! ## What is read -/

/-- A module in the form that reading leaves. -/
structure Imported (m : Module) : Prop where
  ties : ∃ ties, Anchored ties ∧ m.connections = tieConnections ties ∧
    ties.map Prod.fst = m.places ∧
      ∀ c ∈ m.cells, ∀ e ∈ c.ports.entries, ∀ b ∈ e.2, Stands ties b
  tidy : Tidy m
  numbered : m.PortsNumbered

/-- Renumbering the ports at the end changes positions only. -/
theorem imported_renumberPorts {title : String} {ties : List (Bit × Bit)} {d : Draft}
    (h : Sound title ties d) : Imported d.module.renumberPorts := by
  let m := d.module
  have hwire : ∀ id, m.renumberPorts.wire id =
      { m.wire id with position := (m.renumberPorts.wire id).position } := by
    intro id
    rw [Module.wire_renumberPorts]
  have hlength := m.length_renumberPorts
  refine ⟨⟨ties, h.tied.anchored, h.tied.connections, ?_, h.tied.signals⟩, ?_,
    m.renumberPorts_renumberPorts⟩
  · refine h.places.trans (places_congr hlength fun id => ?_).symm
    rw [hwire]
  · refine ⟨?_, h.tidy.cells_nodup, h.tidy.attributes, ?_, h.tidy.cells⟩
    · refine Module.wires_nodup_of_inj fun i hi j hj he => ?_
      rw [hwire i, hwire j] at he
      exact Module.wire_inj_of_name h.tidy.wires_nodup (hlength ▸ hi) (hlength ▸ hj) he
    · intro w hw
      obtain ⟨id, hid, rfl⟩ := List.getElem_of_mem hw
      have hkept := h.tidy.wires (m.wire id) (Module.wire_mem (hlength ▸ hid))
      rw [← Module.wire_eq_getElem hid, hwire]
      exact hkept

theorem imported_of_importModule {name : String} {j : Json} {m : Module}
    (h : importModule name j = .ok m) : m.name = name ∧ Imported m := by
  unfold importModule at h
  obtain ⟨attributes, hattributes, h⟩ := Text.of_bind_ok h
  obtain ⟨ports, -, h⟩ := Text.of_bind_ok h
  obtain ⟨d₁, hnets, h⟩ := Text.of_bind_ok h
  obtain ⟨d₂, hports, h⟩ := Text.of_bind_ok h
  obtain ⟨d₃, hcells, hresult⟩ := Text.of_bind_ok h
  obtain rfl := Except.ok.inj hresult
  have hstart : ∃ ties, Sound name ties { module := { name, attributes } } :=
    ⟨[], .start name hattributes⟩
  have hsound₁ : ∃ ties, Sound name ties d₁ := by
    refine foldlM_invariant (P := fun d => ∃ ties, Sound name ties d) ?_ hstart hnets
    rintro d field d' ⟨ties, hsound⟩ hstep
    exact (hsound.importNet hstep).imp' _ fun _ h => h
  obtain ⟨ties, hsound₁⟩ := hsound₁
  obtain ⟨more, hsound₂⟩ := hsound₁.importPorts hports
  have hsound₃ : ∃ ties, Sound name ties d₃ := by
    refine foldlM_invariant (P := fun d => ∃ ties, Sound name ties d) ?_ ⟨_, hsound₂⟩ hcells
    rintro d field d' ⟨ties, hsound⟩ hstep
    exact (hsound.importCell hstep).imp' _ fun _ h => h
  obtain ⟨ties, hsound₃⟩ := hsound₃
  exact ⟨hsound₃.name, imported_renumberPorts hsound₃⟩

theorem imported_of_importDesign {j : Json} {d : Design} (h : importDesign j = .ok d) :
    (d.modules.map (·.name)).Nodup ∧ ∀ m ∈ d.modules, Imported m := by
  unfold importDesign at h
  split at h
  · refine foldlM_invariant (P := fun d : Design =>
      (d.modules.map (·.name)).Nodup ∧ ∀ m ∈ d.modules, Imported m) ?_ (by simp) h
    rintro d field d' ⟨hnames, hmodules⟩ hstep
    split at hstep
    · cases hstep
    · rename_i hnew
      cases hm : importModule field.1 field.2 with
      | error fault =>
        rw [hm] at hstep
        cases hstep
      | ok m =>
        rw [hm] at hstep
        obtain rfl := Except.ok.inj hstep
        obtain ⟨hname, himported⟩ := imported_of_importModule hm
        refine ⟨?_, ?_⟩
        · rw [Option.not_isSome_iff_eq_none, Design.find?_eq_none, ← hname] at hnew
          exact nodup_concat hnames hnew
        · intro m' hm'
          rcases List.mem_append.mp hm' with hm' | hm'
          · exact hmodules m' hm'
          · exact List.mem_singleton.mp hm' ▸ himported
  · cases h

/-! ## What is read is well formed -/

theorem hasBit_of_stands {m : Module} {ties : List (Bit × Bit)}
    (hplaces : ties.map Prod.fst = m.places) {b : Bit} (h : Stands ties b) : m.HasBit b := by
  rcases h with hc | hmem
  · cases b with
    | const t => trivial
    | wire id i => cases hc
  · have hplace : b ∈ m.places := hplaces ▸ List.mem_map_of_mem hmem
    exact (Module.mem_places.mp hplace).1

theorem wellFormed_of_imported {m : Module} (h : Imported m) : m.WellFormed := by
  obtain ⟨ties, hanchored, hconnections, hplaces, hsignals⟩ := h.ties
  have hconnection : ∀ c ∈ m.connections, ∃ p t, (p, t) ∈ ties ∧ c = ([p], [t]) := by
    intro c hc
    rw [hconnections] at hc
    obtain ⟨⟨p, t⟩, hmem, hc⟩ := List.mem_flatMap.mp hc
    refine ⟨p, t, hmem, ?_⟩
    split at hc
    · cases hc
    · exact List.mem_singleton.mp hc
  refine ⟨h.tidy.wires_nodup, h.tidy.cells_nodup, ?_, ?_, ?_⟩
  · intro c hc e he b hb
    exact hasBit_of_stands hplaces (hsignals c hc e he b hb)
  · intro c hc b hb
    obtain ⟨p, t, hmem, rfl⟩ := hconnection c hc
    have hplace : p ∈ m.places := hplaces ▸ List.mem_map_of_mem hmem
    rcases List.mem_append.mp hb with hb | hb
    · exact List.mem_singleton.mp hb ▸ (Module.mem_places.mp hplace).1
    · exact List.mem_singleton.mp hb ▸ hasBit_of_stands hplaces (hanchored.target hmem)
  · intro c hc
    obtain ⟨p, t, -, rfl⟩ := hconnection c hc
    rfl

/-! ## Reading again -/

/-- A module is given back but for its counter for fresh names and the directions recorded with its
cells. A cell whose type is no module of the design has the same ones for its connected ports. -/
structure GivenBack (d : Design) (m m' : Module) : Prop where
  module : { m' with nextNumber := m.nextNumber, cells := m.cells } = m
  cells : List.Forall₂ (fun c c' : Cell => { c' with directions := c.directions } = c ∧
    (d.find? c.type = none →
      ∀ e ∈ c.ports.entries, c'.directions.get? e.1 = c.directions.get? e.1)) m.cells m'.cells

theorem homes_of_imported {m : Module} {ties : List (Bit × Bit)} (hanchored : Anchored ties)
    (hconnections : m.connections = tieConnections ties)
    (hplaces : ties.map Prod.fst = m.places) : m.homes m.places = ties := by
  rw [Module.homes, ← hplaces, List.map_map]
  refine (List.map_congr_left ?_).trans (List.map_id ties)
  rintro ⟨p, t⟩ hmem
  exact congrArg (Prod.mk p) (Module.homeOf_of_anchored hanchored hconnections hplaces hmem)

theorem rebuiltCell_of_imported (signatures : Signatures) {m : Module} (h : Imported m) {c : Cell}
    (hc : c ∈ m.cells) :
    rebuiltCell signatures m c = { c with directions := readDirections signatures c } := by
  obtain ⟨ties, hanchored, hconnections, hplaces, hsignals⟩ := h.ties
  obtain ⟨hparameters, hattributes⟩ := h.tidy.cells c hc
  -- an anchor is tied to itself, so it is its own home
  have hhome : ∀ e ∈ c.ports.entries, e.2.map m.homeOf = e.2 := by
    intro e he
    refine (List.map_congr_left fun b hb => ?_).trans (List.map_id _)
    rcases hsignals c hc e he b hb with hconst | hmem
    · cases b with
      | const t => exact m.homeOf_const t
      | wire id i => cases hconst
    · exact Module.homeOf_of_anchored hanchored hconnections hplaces hmem
  have hports : (c.ports.mapValues fun _ s => s.map m.homeOf) = c.ports := by
    refine OrderedTable.ext ((List.map_congr_left fun e he => ?_).trans (List.map_id _))
    exact congrArg (Prod.mk e.1) (hhome e he)
  rw [rebuiltCell, hparameters, hattributes, hports]

/-- A module in the form that reading leaves is put together from its nets already. -/
theorem rebuilt_of_imported (signatures : Signatures) {m : Module} (h : Imported m) :
    rebuilt signatures m = { m with
      nextNumber := 1
      cells := m.cells.map fun c => { c with directions := readDirections signatures c } } := by
  obtain ⟨ties, hanchored, hconnections, hplaces, -⟩ := h.ties
  have hhomes := homes_of_imported hanchored hconnections hplaces
  have hwires : m.wires.map rereadWire = m.wires := by
    refine (List.map_congr_left fun w hw => ?_).trans (List.map_id _)
    rw [rereadWire, (h.tidy.wires w hw).1]
    rfl
  have hcells : m.cells.map (rebuiltCell signatures m) =
      m.cells.map fun c => { c with directions := readDirections signatures c } :=
    List.map_congr_left fun c hc => rebuiltCell_of_imported signatures h hc
  rw [rebuilt, hhomes, ← hconnections, hwires, hcells, h.tidy.attributes]

theorem givenBack_rebuilt {d : Design} {m : Module} (h : Imported m) :
    GivenBack d m (rebuilt (.ofDesign d) m) := by
  rw [rebuilt_of_imported _ h]
  refine ⟨rfl, List.forall₂_map_right_iff.mpr (List.forall₂_same.mpr fun c _ => ⟨rfl, ?_⟩)⟩
  intro hprimitive e he
  rw [get?_readDirections _ _ (List.mem_map_of_mem he), direction_ofDesign, hprimitive]

/-- Whatever tree is read gives a well-formed design with its ports in order. -/
theorem wellFormed_importDesign {j : Json} {d : Design} (h : importDesign j = .ok d) :
    d.WellFormed ∧ d.PortsNumbered := by
  obtain ⟨hnames, himported⟩ := imported_of_importDesign h
  exact ⟨⟨hnames, fun m hm => wellFormed_of_imported (himported m hm)⟩,
    fun m hm => (himported m hm).numbered⟩

/-- A design that has been read is read back where it is written. -/
theorem importDesign_fixed {j : Json} {d : Design} (h : importDesign j = .ok d)
    (ho : ∀ m ∈ d.modules, ∀ w ∈ m.wires, -signedLimit < w.offset) :
    ∃ d', importDesign (exportDesign d) = .ok d' ∧
      List.Forall₂ (GivenBack d) d.modules d'.modules := by
  obtain ⟨hd, hp⟩ := wellFormed_importDesign h
  obtain ⟨-, himported⟩ := imported_of_importDesign h
  have hfit : ∀ m ∈ d.modules, OffsetsFit m := fun m hm w hw =>
    ⟨ho m hm w hw, ((himported m hm).tidy.wires w hw).2⟩
  refine ⟨_, importDesign_exportDesign hd hp hfit, ?_⟩
  refine List.forall₂_map_right_iff.mpr (List.forall₂_same.mpr ?_)
  intro m hm
  exact givenBack_rebuilt (himported m hm)

/-! ## Nets met in odd places -/

theorem tokens?_cons (c : Char) (rest : List Char) : Json.tokens? (c :: rest) =
    if Json.isSpace c then Json.tokens? rest
    else (Json.token? c rest).bind fun r => (Json.tokens? r.2).map (r.1 :: ·) := by
  rw [Json.tokens?]
  split
  · rfl
  · split
    · rename_i h
      rw [h]
      rfl
    · rename_i h
      rw [h]
      rfl

/-- A port without a net of its name, on one net twice and on a constant, and a cell on a net that
no wire has. -/
def strayText : String := "\x7b\"modules\":\x7b\"top\":\x7b
  \"ports\":\x7b\"a\":\x7b\"direction\":\"input\",\"bits\":[2,\"1\",2]\x7d\x7d,
  \"cells\":\x7b\"g\":\x7b\"type\":\"INV\",
    \"connections\":\x7b\"A\":[2,7,\"x\"]\x7d\x7d\x7d\x7d\x7d\x7d"

def strayTree : Json := .object [("modules", .object [("top", .object [
  ("ports", .object [("a", .object [("direction", .string "input"),
    ("bits", .array [.ofNat 2, .string "1", .ofNat 2])])]),
  ("cells", .object [("g", .object [("type", .string "INV"),
    ("connections", .object [("A", .array [.ofNat 2, .ofNat 7, .string "x"])])])])])])]

theorem parse?_strayText : Json.parse? strayText.toList = some strayTree := by
  have hnumbers : ∀ rest, Json.magnitude false ('2' :: ',' :: rest) = some (.ofNat 2, ',' :: rest) ∧
      Json.magnitude false ('2' :: ']' :: rest) = some (.ofNat 2, ']' :: rest) ∧
      Json.magnitude false ('7' :: ',' :: rest) = some (.ofNat 7, ',' :: rest) :=
    fun _ => ⟨rfl, rfl, rfl⟩
  simp [Json.parse?, strayText, tokens?_cons, Json.isSpace, Json.token?, Json.stringBody, hnumbers,
    Json.tokens?]
  cbv

theorem decode?_strayText :
    Text.decode? (Text.encode strayText.toList) = some strayText.toList := by
  set_option maxRecDepth 2000 in cbv

/-- The port brings its own wire, on one net with itself, and the net of the cell gets a wire; all
this is given back. -/
theorem importDesign_fixed_strayText : ∃ d, ofBytes (Text.encode strayText.toList) = .ok d ∧
    importDesign strayTree = .ok d ∧
    d.modules.map (fun m => (m.wires.map (·.name), m.connections)) =
      [(["a", "$json$1"], [([.wire 0 1], [.const .one]), ([.wire 0 2], [.wire 0 0])])] ∧
    (∀ m ∈ d.modules, ∀ w ∈ m.wires, -signedLimit < w.offset) ∧
    ∃ d', importDesign (exportDesign d) = .ok d' ∧
      List.Forall₂ (GivenBack d) d.modules d'.modules := by
  have hread : ofBytes (Text.encode strayText.toList) =
      (importDesign strayTree).mapError .netlist := by
    rw [ofBytes, decode?_strayText]
    dsimp only
    rw [parse?_strayText]
  have hdesign : ((importDesign strayTree).toOption.map fun d =>
      (d.modules.map fun m => (m.wires.map (·.name), m.connections),
        d.modules.all fun m => m.wires.all fun w => decide (-signedLimit < w.offset))) =
      some ([(["a", "$json$1"],
        [([.wire 0 1], [.const .one]), ([.wire 0 2], [.wire 0 0])])], true) := by cbv
  cases hd : importDesign strayTree with
  | error fault =>
    rw [hd] at hdesign
    cases hdesign
  | ok d =>
    rw [hd] at hread hdesign
    obtain ⟨hmodules, hoffsets⟩ := Prod.mk.inj (Option.some.inj hdesign)
    simp only [List.all_eq_true, decide_eq_true_eq] at hoffsets
    exact ⟨d, hread, rfl, hmodules, hoffsets, importDesign_fixed hd hoffsets⟩

end ClockNet.NetlistJson

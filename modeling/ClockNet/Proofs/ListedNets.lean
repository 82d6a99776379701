import ClockNet.Proofs.Mentions
import Mathlib

/-! # Reading listed bits

Every step of reading a module puts the bits that it lists on the account, and the places of a
module stay where they are, so at the end all of them are found (`Continues`). Each port of a cell
and each bare port is read once, since the names of a tree are distinct. The module has then the
nets that the tree lists (`sharesNets_of_importModule`). -/

namespace ClockNet.NetlistJson

section
variable {title : String} {log : List (Json × Bit)} {ties : List (Bit × Bit)}
  {d d' d'' : Draft} {j : Json} {b p : Bit} {m m' : Module}

/-! ## Wires -/

/-- Listed bits are found in a module, or by another look-up, as an account gives them. -/
def Placed (look : Site → Option Bit) (sites : List (Site × Json)) (log : List (Json × Bit)) :
    Prop :=
  List.Forall₂ (fun e n => n.1 = e.2 ∧ look e.1 = some n.2) sites log

theorem Placed.extends {sites : List (Site × Json)} (h : Placed m.bitOf? sites log)
    (hm : m.Extends m') : Placed m'.bitOf? sites log :=
  h.imp fun _ _ he => ⟨he.1, hm.bitOf? he.2⟩

theorem Placed.exists_noted {look : Site → Option Bit} {sites : List (Site × Json)}
    (h : Placed look sites log) {e : Site × Json} (he : e ∈ sites) :
    ∃ n ∈ log, n.1 = e.2 ∧ look e.1 = some n.2 := by
  induction h with
  | nil => cases he
  | cons hhead _ ih =>
    rcases List.mem_cons.mp he with rfl | he
    · exact ⟨_, List.mem_cons_self, hhead⟩
    · obtain ⟨n, hn, hfound⟩ := ih he
      exact ⟨n, List.mem_cons_of_mem _ hn, hfound⟩

theorem Placed.exists_site {look : Site → Option Bit} {sites : List (Site × Json)}
    (h : Placed look sites log) (hb : b ∈ log.map Prod.snd) : ∃ e ∈ sites, look e.1 = some b := by
  induction h with
  | nil => cases hb
  | cons hhead _ ih =>
    rcases List.mem_cons.mp hb with rfl | hb
    · exact ⟨_, List.mem_cons_self, hhead.2⟩
    · obtain ⟨e, he, hfound⟩ := ih hb
      exact ⟨e, List.mem_cons_of_mem _ he, hfound⟩

/-- A list of bits is found where each is found. -/
theorem placed_listed {look : Site → Option Bit} {site : Nat → Site} {bits : Json} {s : Signal}
    (hlength : s.length = bits.items.length)
    (hlook : ∀ i b, s[i]? = some b → look (site i) = some b) :
    Placed look (listed site bits) (bits.items.zip s) := by
  refine List.forall₂_iff_get.mpr ⟨by simp [listed, hlength], fun i hi hi' => ?_⟩
  have his : i < s.length := by
    rw [List.length_zip] at hi'
    omega
  simp [listed, hlook i _ (List.getElem?_eq_getElem his)]

/-- A draft between two steps, with the account of the listed bits that have been read. -/
structure Account (title : String) (log : List (Json × Bit)) (d : Draft) : Prop where
  noted : Noted log d
  sound : ∃ ties, Sound title ties d

/-- Reading goes on from an account to one with more listed bits, and finds what was found. -/
structure Continues (title : String) (sites : List (Site × Json)) (log : List (Json × Bit))
    (d d' : Draft) : Prop where
  account : ∃ more, Account title (log ++ more) d' ∧ Placed d'.module.bitOf? sites more
  stays : d.module.Extends d'.module

theorem Account.continues (h : Account title log d) : Continues title [] log d d :=
  ⟨⟨[], by rwa [List.append_nil], .nil⟩, .of_eq rfl rfl⟩

theorem Continues.trans {sites sites' : List (Site × Json)} (h : Continues title sites log d d')
    (h' : ∀ log, Account title log d' → Continues title sites' log d' d'') :
    Continues title (sites ++ sites') log d d'' := by
  obtain ⟨⟨more, haccount, hplaced⟩, hstays⟩ := h
  obtain ⟨⟨more', haccount', hplaced'⟩, hstays'⟩ := h' _ haccount
  refine ⟨⟨more ++ more', ?_, ?_⟩, hstays.trans hstays'⟩
  · rwa [← List.append_assoc]
  · exact List.rel_append (hplaced.extends hstays') hplaced'

/-- A bit of a wire is put on the account. -/
theorem Noted.bindBit (h : Noted log d) (htied : Tied ties d) (hnew : p ∉ ties.map Prod.fst)
    (hd : bindBit d p j = .ok d') : Noted (log ++ [(j, p)]) d' := by
  unfold NetlistJson.bindBit at hd
  split at hd
  · rename_i net hnet
    split at hd
    · rename_i home hhome
      obtain rfl := Except.ok.inj hd
      exact h.connect (by rw [target?_of_toNat? hnet, hhome])
    · rename_i hnone
      obtain rfl := Except.ok.inj hd
      refine h.settle hnet hnone fun other hp => ?_
      exact hnew (List.mem_map_of_mem (htied.homes other p hp))
  · rename_i hnet
    obtain ⟨c, hc, rfl⟩ := Text.map_eq_ok.mp hd
    exact h.connect (target?_of_constBit hnet hc)

theorem Noted.bindBits (h : Noted log d) (htied : Tied ties d) {id : WireId} {first : Nat}
    (hnew : ∀ i, first ≤ i → Bit.wire id i ∉ ties.map Prod.fst) {bits : List Json}
    (hd : bindBits d id first bits = .ok d') :
    Noted (log ++ bits.zip ((List.range' first bits.length).map (Bit.wire id))) d' := by
  induction bits generalizing log ties d first with
  | nil =>
    obtain rfl := Except.ok.inj hd
    simpa using h
  | cons j rest ih =>
    obtain ⟨d₁, hfirst, hrest⟩ := Text.of_bind_ok hd
    have hhere := hnew first (Nat.le_refl _)
    obtain ⟨t, htied', -⟩ := htied.bindBit rfl hhere hfirst
    have hall := ih (h.bindBit htied hhere hfirst) htied' (not_mem_after hnew t) hrest
    rwa [List.append_assoc] at hall

/-- The bits of a wire that is added are put on the account, those that are listed for it. -/
theorem Account.bindWire (h : Account title log d) {name : String} {bits : Json} {id : WireId}
    (hd : bindWire d name bits = .ok (id, d')) :
    Continues title (listed (.wire name) bits) log d d' ∧
      d'.module.wires.map (·.name) = d.module.wires.map (·.name) ++ [name] ∧
      id < d'.module.wires.length ∧ (d'.module.wire id).offset < signedLimit := by
  obtain ⟨ties, hs⟩ := h.sound
  obtain ⟨⟨more, hsound⟩, hid, -, hoffset⟩ := hs.bindWire hd
  obtain ⟨hnew, rfl, hbits⟩ := bindWire_ok hd
  have hstart : Tied ties { d with module := d.module.addWire { name, width := bits.size } } :=
    ⟨hs.tied.anchored, hs.tied.connections, hs.tied.homes, hs.tied.signals⟩
  have hlast : ∀ i, 0 ≤ i → Bit.wire d.module.wires.length i ∉ ties.map Prod.fst :=
    fun i _ => hs.next_not_mem i
  obtain ⟨_, -, -, hmodule⟩ := hstart.bindBits hlast hbits
  have hfirst : Noted log { d with module := d.module.addWire { name, width := bits.size } } :=
    h.noted.congr rfl rfl
  have hnoted := hfirst.bindBits hstart hlast hbits
  have hwires : d'.module.wires = d.module.wires ++ [{ name, width := bits.size }] := by
    rw [hmodule]
    rfl
  have hfind : d'.module.findWire name = some d.module.wires.length := by
    have hnone : d.module.wires.findIdx? (·.name == name) = none := hnew
    rw [Module.findWire, hwires, List.findIdx?_append, hnone]
    simp
  have hwidth : (d'.module.wire d.module.wires.length).width = bits.size := by
    rw [wire_concat hwires, if_pos rfl]
  refine ⟨⟨⟨_, ⟨hnoted, _, hsound⟩, placed_listed (by simp) ?_⟩, ⟨?_, ?_⟩⟩, ?_, hid, hoffset⟩
  · intro i b hb
    obtain ⟨hi, rfl⟩ : i < bits.items.length ∧ Bit.wire d.module.wires.length i = b := by
      simpa [List.getElem?_eq_some_iff] using hb
    have hsize := length_items_le bits
    rw [Module.bitOf?_wire hfind, hwidth, if_pos (by omega)]
  · rw [Module.shapes, Module.shapes, hwires, List.map_append]
    exact List.prefix_append _ _
  · rw [hmodule]
    exact List.prefix_rfl
  · rw [hwires, List.map_append]
    rfl

/-- A wire that keeps its name and width is found as before. -/
theorem shapes_of_updateWire {id : WireId} {step : Wire → Except Fault Wire}
    (hstep : ∀ w, step (d.module.wire id) = .ok w →
      w.name = (d.module.wire id).name ∧ w.width = (d.module.wire id).width)
    (hd : updateWire d id step = .ok d') : d'.module.shapes = d.module.shapes ∧
      d'.homes = d.homes ∧ d'.module.connections = d.module.connections ∧
      d'.module.cells = d.module.cells := by
  obtain ⟨w, hw, hresult⟩ := Text.of_bind_ok hd
  obtain rfl := Except.ok.inj hresult
  obtain ⟨hname, hwidth⟩ := hstep w hw
  refine ⟨List.ext_getElem? fun i => ?_, rfl, rfl, rfl⟩
  show ((d.module.wires.modify id fun _ => w).map _)[i]? = (d.module.wires.map _)[i]?
  rw [List.getElem?_map, List.getElem?_map, List.getElem?_modify]
  cases hi : d.module.wires[i]? with
  | none => rfl
  | some w' =>
    by_cases he : id = i
    · subst he
      have hw' : d.module.wire id = w' := by rw [Module.wire, hi, Option.getD_some]
      rw [hw'] at hname hwidth
      simp [hname, hwidth]
    · simp [he]

theorem Continues.updateWire {sites : List (Site × Json)} (h : Continues title sites log d d')
    {id : WireId} {step : Wire → Except Fault Wire}
    (hstep : ∀ w, step (d'.module.wire id) = .ok w →
      w.name = (d'.module.wire id).name ∧ w.width = (d'.module.wire id).width)
    (hd : updateWire d' id step = .ok d'') (hs : ∃ ties, Sound title ties d'') :
    Continues title sites log d d'' := by
  obtain ⟨hshapes, hhomes, hconnections, hcells⟩ := shapes_of_updateWire hstep hd
  have hstays : d'.module.Extends d''.module := .of_eq hshapes hcells
  obtain ⟨⟨more, haccount, hplaced⟩, hold⟩ := h
  exact ⟨⟨more, ⟨haccount.noted.congr hhomes hconnections, hs⟩, hplaced.extends hstays⟩,
    hold.trans hstays⟩

theorem names_of_shapes (h : m'.shapes = m.shapes) :
    m'.wires.map (·.name) = m.wires.map (·.name) := by
  have hnames : ∀ m : Module, m.wires.map (·.name) = m.shapes.map Prod.fst := by
    intro m
    rw [Module.shapes, List.map_map]
    rfl
  rw [hnames, hnames, h]

/-! ## Nets and ports -/

theorem Account.importNet (h : Account title log d) {name : String}
    (hd : importNet d name j = .ok d') :
    Continues title (listed (.wire name) (j.field "bits")) log d d' ∧
      d'.module.wires.map (·.name) = d.module.wires.map (·.name) ++ [name] := by
  obtain ⟨ties, hs⟩ := h.sound
  have hsound := hs.importNet hd
  obtain ⟨⟨id, d₁⟩, hbind, hupdate⟩ := Text.of_bind_ok hd
  obtain ⟨hcontinues, hnames, -, hoffset⟩ := h.bindWire hbind
  have hstep : ∀ w, (do
      let attributes ← importAttributes (j.field "attributes")
      importShape { d₁.module.wire id with attributes } j) = .ok w →
      w.name = (d₁.module.wire id).name ∧ w.width = (d₁.module.wire id).width := by
    intro w hw
    obtain ⟨attributes, -, hshape⟩ := Text.of_bind_ok hw
    obtain ⟨hname, hwidth, -⟩ := importShape_ok hshape hoffset
    exact ⟨hname, hwidth⟩
  refine ⟨hcontinues.updateWire hstep hupdate (hsound.imp' _ fun _ h => h), ?_⟩
  rw [names_of_shapes (shapes_of_updateWire hstep hupdate).1, hnames]

theorem Account.importNets (h : Account title log d) {fields : List (String × Json)}
    (hd : fields.foldlM (fun d field => NetlistJson.importNet d field.1 field.2) d = .ok d') :
    Continues title (wireMentions fields) log d d' ∧
      d'.module.wires.map (·.name) = d.module.wires.map (·.name) ++ fields.map Prod.fst := by
  induction fields generalizing log d with
  | nil =>
    obtain rfl := Except.ok.inj hd
    exact ⟨h.continues, by simp⟩
  | cons field rest ih =>
    rw [List.foldlM_cons] at hd
    obtain ⟨d₁, hfirst, hrest⟩ := Text.of_bind_ok hd
    obtain ⟨hcontinues, hnames⟩ := h.importNet hfirst
    refine ⟨hcontinues.trans fun log h₁ => (ih h₁ hrest).1, ?_⟩
    obtain ⟨more, h₁, -⟩ := hcontinues.account
    rw [(ih h₁ hrest).2, hnames]
    simp

theorem barePorts_singleton (names : List String) (field : String × Json) :
    barePorts names [field] = if field.1 ∈ names then [] else [field] := by
  rw [barePorts, List.filter_singleton]
  by_cases h : field.1 ∈ names <;> simp [h]

/-- A port brings its own bits unless a wire has its name. -/
theorem Account.importPort (h : Account title log d) {position : Nat} {direction : Direction}
    {name : String} (hd : importPort d position direction name j = .ok d') :
    Continues title (wireMentions (barePorts (d.module.wires.map (·.name)) [(name, j)])) log d d' ∧
      ∀ other ≠ name, other ∈ d'.module.wires.map (·.name) ↔
        other ∈ d.module.wires.map (·.name) := by
  obtain ⟨ties, hs⟩ := h.sound
  have hsound : ∃ ties, Sound title ties d' := (hs.importPort hd).imp' _ fun _ h => h
  obtain ⟨id, d₁, ⟨hfind, rfl⟩ | ⟨hfind, hbind⟩, hupdate⟩ := importPort_ok hd
  · obtain ⟨hid, hname⟩ := Module.name_of_findWire hfind
    have hmem : name ∈ d₁.module.wires.map (·.name) :=
      hname ▸ List.mem_map_of_mem (Module.wire_mem hid)
    have hoffset := (hs.tidy.wires _ (Module.wire_mem hid)).2
    have hkeep := fun w hw => (@portStep_ok _ w j position direction hw hoffset).imp_right
      And.left
    rw [barePorts_singleton, if_pos hmem]
    refine ⟨h.continues.updateWire hkeep hupdate hsound, fun other _ => ?_⟩
    rw [names_of_shapes (shapes_of_updateWire hkeep hupdate).1]
  · obtain ⟨hcontinues, hnames, -, hoffset⟩ := h.bindWire hbind
    have hone : wireMentions [(name, j)] = listed (.wire name) (j.field "bits") :=
      List.flatMap_singleton ..
    have hkeep := fun w hw => (@portStep_ok _ w j position direction hw hoffset).imp_right
      And.left
    rw [barePorts_singleton, if_neg (Module.findWire_eq_none.mp hfind), hone]
    refine ⟨hcontinues.updateWire hkeep hupdate hsound, fun other hne => ?_⟩
    rw [names_of_shapes (shapes_of_updateWire hkeep hupdate).1, hnames]
    simp [hne]

theorem Account.importPorts (h : Account title log d) {position : Nat}
    {ports : List (Direction × String × Json)} (hnodup : (ports.map (·.2.1)).Nodup)
    (hd : importPorts d position ports = .ok d') :
    Continues title (wireMentions (barePorts (d.module.wires.map (·.name)) (ports.map Prod.snd)))
      log d d' := by
  induction ports generalizing log d position with
  | nil =>
    obtain rfl := Except.ok.inj hd
    exact h.continues
  | cons port rest ih =>
    obtain ⟨direction, name, j⟩ := port
    obtain ⟨d₁, hfirst, hrest⟩ := Text.of_bind_ok hd
    obtain ⟨hnew, hnodup⟩ := List.nodup_cons.mp hnodup
    obtain ⟨hcontinues, hnames⟩ := h.importPort hfirst
    -- the wire of a port is none that a later port looks for
    have hlater : barePorts (d₁.module.wires.map (·.name)) (rest.map Prod.snd) =
        barePorts (d.module.wires.map (·.name)) (rest.map Prod.snd) := by
      refine List.filter_congr fun field hfield => ?_
      obtain ⟨port, hport, rfl⟩ := List.mem_map.mp hfield
      have hne : port.2.1 ≠ name := by
        intro he
        exact hnew (List.mem_map.mpr ⟨port, hport, he⟩)
      simp only [hnames port.2.1 hne]
    have hsplit : wireMentions (barePorts (d.module.wires.map (·.name))
          (((direction, name, j) :: rest).map Prod.snd)) =
        wireMentions (barePorts (d.module.wires.map (·.name)) [(name, j)]) ++
          wireMentions (barePorts (d₁.module.wires.map (·.name)) (rest.map Prod.snd)) := by
      rw [hlater, wireMentions, wireMentions, wireMentions, ← List.flatMap_append, barePorts,
        barePorts, barePorts, ← List.filter_append]
      rfl
    rw [hsplit]
    exact hcontinues.trans fun log h₁ => ih h₁ hnodup hrest

/-! ## Cells -/

theorem Account.signalBit (h : Account title log d) (hd : signalBit d j = .ok (b, d')) :
    Account title (log ++ [(j, b)]) d' ∧ d.module.Extends d'.module := by
  obtain ⟨ties, hs⟩ := h.sound
  obtain ⟨more, hsound, -⟩ := hs.signalBit hd
  unfold NetlistJson.signalBit at hd
  split at hd
  · rename_i net hnet
    split at hd
    · rename_i home hhome
      obtain ⟨rfl, rfl⟩ := Prod.mk.inj (Except.ok.inj hd)
      exact ⟨⟨h.noted.note (by rw [target?_of_toNat? hnet, hhome]), _, hsound⟩, .of_eq rfl rfl⟩
    · rename_i hnone
      obtain ⟨rfl, rfl⟩ := Prod.mk.inj (Except.ok.inj hd)
      refine ⟨⟨?_, _, hsound⟩, ?_, List.prefix_rfl⟩
      · refine Noted.settle (h.noted.congr rfl rfl) hnet hnone fun other hother => ?_
        exact hs.next_not_mem 0 (List.mem_map_of_mem (hs.tied.homes other _ hother))
      · exact List.prefix_append _ _ |>.map _
  · rename_i hnet
    obtain ⟨c, hc, hresult⟩ := Text.map_eq_ok.mp hd
    obtain ⟨rfl, rfl⟩ := Prod.mk.inj hresult
    exact ⟨⟨h.noted.note (target?_of_constBit hnet hc), _, hsound⟩, .of_eq rfl rfl⟩

theorem Account.signalBits (h : Account title log d) {bits : List Json} {s : Signal}
    (hd : signalBits d bits = .ok (s, d')) : Account title (log ++ bits.zip s) d' ∧
      d.module.Extends d'.module ∧ s.length = bits.length := by
  induction bits generalizing log d s with
  | nil =>
    obtain ⟨rfl, rfl⟩ := Prod.mk.inj (Except.ok.inj hd)
    exact ⟨by simpa using h, .of_eq rfl rfl, rfl⟩
  | cons j rest ih =>
    obtain ⟨⟨b, d₁⟩, hfirst, hd⟩ := Text.of_bind_ok hd
    obtain ⟨⟨s', d₂⟩, hrest, hresult⟩ := Text.of_bind_ok hd
    obtain ⟨rfl, rfl⟩ := Prod.mk.inj (Except.ok.inj hresult)
    obtain ⟨h₁, hstays₁⟩ := h.signalBit hfirst
    obtain ⟨h₂, hstays₂, hlength⟩ := ih h₁ hrest
    refine ⟨?_, hstays₁.trans hstays₂, congrArg (· + 1) hlength⟩
    rwa [List.append_assoc] at h₂

/-- The bits that the connections of a cell list are put on the account. They are found by
whatever finds the bits of the signals that have been read. -/
theorem Account.importConnections (h : Account title log d) {fields : List (String × Json)}
    {connections : List (String × Signal)} (cell : String)
    (hd : importConnections d fields = .ok (connections, d')) :
    ∃ more, Account title (log ++ more) d' ∧ d.module.Extends d'.module ∧
      connections.map Prod.fst = fields.map Prod.fst ∧
      ∀ look : Site → Option Bit, (∀ e ∈ connections, ∀ i b, e.2[i]? = some b →
        look (.pin cell e.1 i) = some b) → Placed look (pinMentions cell fields) more := by
  induction fields generalizing log d connections with
  | nil =>
    obtain ⟨rfl, rfl⟩ := Prod.mk.inj (Except.ok.inj hd)
    exact ⟨[], by rwa [List.append_nil], .of_eq rfl rfl, rfl, fun _ _ => .nil⟩
  | cons field rest ih =>
    obtain ⟨⟨s, d₁⟩, hfirst, hd⟩ := Text.of_bind_ok hd
    obtain ⟨⟨connections', d₂⟩, hrest, hresult⟩ := Text.of_bind_ok hd
    obtain ⟨rfl, rfl⟩ := Prod.mk.inj (Except.ok.inj hresult)
    obtain ⟨h₁, hstays₁, hlength⟩ := h.signalBits (signalBits_of_importSignal hfirst)
    obtain ⟨more, h₂, hstays₂, hnames, hplaced⟩ := ih h₁ hrest
    refine ⟨field.2.items.zip s ++ more, ?_, hstays₁.trans hstays₂, ?_, fun look hlook => ?_⟩
    · rwa [← List.append_assoc]
    · rw [List.map_cons, List.map_cons, hnames]
    · obtain ⟨hhead, htail⟩ := List.forall_mem_cons.mp hlook
      exact List.rel_append (placed_listed hlength hhead) (hplaced look htail)

theorem bitOf?_addCell {c : Cell} (hnew : c.name ∉ m.cells.map (·.name)) {port : String}
    {s : Signal} (hs : (port, s) ∈ c.ports.entries) {i : Nat} (hb : s[i]? = some b) :
    (m.addCell c).bitOf? (.pin c.name port i) = some b := by
  have hfind : (m.addCell c).findCell c.name = some m.cells.length := by
    have hnone : m.cells.findIdx? (·.name == c.name) = none := Module.findCell_eq_none.mpr hnew
    rw [Module.findCell, Module.addCell, List.findIdx?_append, hnone]
    simp
  have hcell : (m.addCell c).cell m.cells.length = c := by simp [Module.cell, Module.addCell]
  rw [Module.bitOf?_pin hfind, hcell, OrderedTable.get?_of_mem hs]
  exact hb

theorem Account.importCell (h : Account title log d) {name : String}
    (hports : ((j.field "connections").fields.map Prod.fst).Nodup)
    (hd : importCell d name j = .ok d') :
    Continues title (pinMentions name (j.field "connections").fields) log d d' := by
  obtain ⟨ties, hs⟩ := h.sound
  have hsound : ∃ ties, Sound title ties d' := (hs.importCell hd).imp' _ fun _ h => h
  unfold NetlistJson.importCell at hd
  split at hd
  · rename_i type _
    split at hd
    · cases hd
    · rename_i hfind
      obtain ⟨⟨connections, d₁⟩, hconnections, hd⟩ := Text.of_bind_ok hd
      obtain ⟨parameters, -, hd⟩ := Text.of_bind_ok hd
      obtain ⟨attributes, -, hd⟩ := Text.of_bind_ok hd
      obtain ⟨directions, -, hresult⟩ := Text.of_bind_ok hd
      obtain rfl := Except.ok.inj hresult
      obtain ⟨-, -, -, hcells⟩ := hs.importConnections hconnections
      obtain ⟨more, h₁, hstays, hnames, hplaced⟩ := h.importConnections name hconnections
      have hnew : name ∉ d₁.module.cells.map (·.name) := by
        rw [hcells]
        exact Module.findCell_eq_none.mp (by simpa using hfind)
      have hempty : (((.empty : OrderedTable Signal).entries ++ connections).map Prod.fst).Nodup :=
        hnames ▸ hports
      have hentries := OrderedTable.entries_foldl_set .empty hempty
      refine ⟨⟨more, ⟨h₁.noted.congr rfl rfl, hsound⟩, hplaced _ fun e he i b hb => ?_⟩,
        hstays.trans ⟨List.prefix_rfl, List.prefix_append _ _⟩⟩
      refine bitOf?_addCell hnew ?_ hb
      rw [hentries]
      exact he
  · cases hd

theorem Account.importCells (h : Account title log d) {fields : List (String × Json)}
    (hports : ∀ field ∈ fields, ((field.2.field "connections").fields.map Prod.fst).Nodup)
    (hd : fields.foldlM (fun d field => NetlistJson.importCell d field.1 field.2) d = .ok d') :
    Continues title (fields.flatMap fun field =>
      pinMentions field.1 (field.2.field "connections").fields) log d d' := by
  induction fields generalizing log d with
  | nil =>
    obtain rfl := Except.ok.inj hd
    exact h.continues
  | cons field rest ih =>
    rw [List.foldlM_cons] at hd
    obtain ⟨d₁, hfirst, hrest⟩ := Text.of_bind_ok hd
    obtain ⟨hfield, hports⟩ := List.forall_mem_cons.mp hports
    exact (h.importCell hfield hfirst).trans fun log h₁ => ih h₁ hports hrest

/-! ## Modules and designs -/

theorem extends_renumberPorts (m : Module) : m.Extends m.renumberPorts := by
  refine .of_eq (List.ext_getElem? fun i => ?_) rfl
  show ((m.wires.mapIdx _).map _)[i]? = (m.wires.map _)[i]?
  rw [List.getElem?_map, List.getElem?_map, List.getElem?_mapIdx]
  cases m.wires[i]? <;> rfl

/-- If all that a module lists is on the account, its nets are those that are listed. -/
theorem sharesNets_of_account (h : Account title log d)
    (hplaced : Placed d.module.bitOf? (mentions j) log) :
    SharesNets j d.module.renumberPorts := by
  obtain ⟨ties, hs⟩ := h.sound
  have hfound := hplaced.extends (extends_renumberPorts d.module)
  -- what is found for a listed bit is what it was given
  have hgiven : ∀ e ∈ mentions j, ∀ b, d.module.renumberPorts.bitOf? e.1 = some b →
      target? d e.2 = some (d.module.aliases.root b) := by
    intro e he b hb
    obtain ⟨n, hn, hsame, hn'⟩ := hfound.exists_noted he
    obtain rfl := Option.some.inj (hb.symm.trans hn')
    rw [← hsame]
    exact hs.root_noted h.noted hn
  refine ⟨?_, ?_, ?_, ?_⟩
  · intro e he
    obtain ⟨n, -, -, hn⟩ := hfound.exists_noted he
    exact ⟨n.2, hn⟩
  · intro e he e' he' b b' hb hb'
    exact hs.target_eq_iff h.noted (hgiven e he b hb) (hgiven e' he' b' hb')
  · intro site s b hmem hb
    rcases target?_cases (hgiven _ hmem b hb) with ⟨net, hnet, -⟩ | ⟨s', t, ht, he, hroot⟩
    · cases hnet
    · exact ⟨t, Json.string.inj he ▸ ht, hroot⟩
  · intro p hp hfree q hq
    refine hs.alone h.noted hp (fun hmem => ?_) hq
    obtain ⟨e, he, hb⟩ := hfound.exists_site hmem
    exact hfree e he hb

theorem snd_of_mapM {fields : List (String × Json)} {ports : List (Direction × String × Json)}
    (h : fields.mapM (fun field => (·, field.1, field.2) <$>
      importDirection (field.2.field "direction")) = .ok ports) : ports.map Prod.snd = fields := by
  induction fields generalizing ports with
  | nil =>
    obtain rfl := Except.ok.inj h
    rfl
  | cons field rest ih =>
    rw [List.mapM_cons] at h
    obtain ⟨port, hport, h⟩ := Text.of_bind_ok h
    obtain ⟨ports', hports, hresult⟩ := Text.of_bind_ok h
    obtain rfl := Except.ok.inj hresult
    obtain ⟨direction, -, rfl⟩ := Text.map_eq_ok.mp hport
    rw [List.map_cons, ih hports]

/-- A module that is read from a tree with distinct names has the nets that the tree lists. -/
theorem sharesNets_of_importModule {name : String} (hj : j.Keyed)
    (h : importModule name j = .ok m) : m.name = name ∧ SharesNets j m := by
  refine ⟨(imported_of_importModule h).1, ?_⟩
  unfold importModule at h
  obtain ⟨attributes, hattributes, h⟩ := Text.of_bind_ok h
  obtain ⟨ports, hdirections, h⟩ := Text.of_bind_ok h
  obtain ⟨d₁, hnets, h⟩ := Text.of_bind_ok h
  obtain ⟨d₂, hports, h⟩ := Text.of_bind_ok h
  obtain ⟨d₃, hcells, hresult⟩ := Text.of_bind_ok h
  obtain rfl := Except.ok.inj hresult
  have hfields := snd_of_mapM hdirections
  have hnodup : (ports.map (·.2.1)).Nodup := by
    have hnames := (hj.field "ports").nodup_fields
    rw [← hfields, List.map_map] at hnames
    exact hnames
  have hconnections : ∀ field ∈ (j.field "cells").fields,
      ((field.2.field "connections").fields.map Prod.fst).Nodup := fun field hfield =>
    (((hj.field "cells").mem_fields hfield).field "connections").nodup_fields
  have hnoted : Noted [] { module := { name, attributes } } := by
    refine ⟨?_, ?_, ?_, ?_⟩
    · intro e he
      cases he
    · intro net b hb
      cases hb
    · intro net net' b hb
      cases hb
    · intro b home hc
      cases hc
  have hstart : Account name [] { module := { name, attributes } } :=
    ⟨hnoted, [], .start name hattributes⟩
  obtain ⟨hcontinues, hnames⟩ := hstart.importNets hnets
  have hall := (hcontinues.trans fun log h₁ => h₁.importPorts hnodup hports).trans
    fun log h₂ => h₂.importCells hconnections hcells
  rw [hnames, hfields] at hall
  obtain ⟨⟨more, haccount, hplaced⟩, -⟩ := hall
  exact sharesNets_of_account haccount hplaced

theorem forall₂_of_importDesign {R : String × Json → Module → Prop} {design : Design}
    (h : importDesign j = .ok design) (hR : ∀ field ∈ (j.field "modules").fields, ∀ m,
      importModule field.1 field.2 = .ok m → R field m) :
    List.Forall₂ R (j.field "modules").fields design.modules := by
  have hfields : ∀ (fields : List (String × Json)) (start : Design), (∀ field ∈ fields, ∀ m,
      importModule field.1 field.2 = .ok m → R field m) → fields.foldlM (fun d field =>
        if (d.find? field.1).isSome then .error (.duplicateModule field.1)
        else d.add <$> importModule field.1 field.2) start = .ok design →
      ∃ ms, design.modules = start.modules ++ ms ∧ List.Forall₂ R fields ms := by
    intro fields
    induction fields with
    | nil =>
      intro start _ h
      obtain rfl := Except.ok.inj h
      exact ⟨[], (List.append_nil _).symm, .nil⟩
    | cons field rest ih =>
      intro start hR h
      rw [List.foldlM_cons] at h
      obtain ⟨next, hfirst, hrest⟩ := Text.of_bind_ok h
      obtain ⟨hhead, htail⟩ := List.forall_mem_cons.mp hR
      obtain ⟨ms, hms, hmodules⟩ := ih next htail hrest
      split at hfirst
      · cases hfirst
      · obtain ⟨m, hm, rfl⟩ := Text.map_eq_ok.mp hfirst
        refine ⟨m :: ms, ?_, .cons (hhead m hm) hmodules⟩
        rw [hms]
        exact List.append_assoc ..
  unfold importDesign at h
  split at h
  · obtain ⟨ms, hms, hmodules⟩ := hfields _ _ hR h
    rwa [hms]
  · cases h

/-- The modules of a design that is read from a tree have the nets that the modules of the tree
list, one by one. -/
theorem nets_shared {design : Design} (hj : j.Keyed) (h : importDesign j = .ok design) :
    List.Forall₂ (fun field m => m.name = field.1 ∧ SharesNets field.2 m)
      (j.field "modules").fields design.modules := by
  refine forall₂_of_importDesign h fun field hfield m hm => ?_
  exact sharesNets_of_importModule ((hj.field "modules").mem_fields hfield) hm

/-- The three bits of a port and the three of a pin, some on one net, are given bits that are
aliases where they should be. -/
theorem nets_shared_strayText : strayTree.Keyed ∧ ∃ design,
    ofBytes (Text.encode strayText.toList) = .ok design ∧ importDesign strayTree = .ok design ∧
    (strayTree.field "modules").fields.map (fun field => (mentions field.2).length) = [6] ∧
    List.Forall₂ (fun field m => m.name = field.1 ∧ SharesNets field.2 m)
      (strayTree.field "modules").fields design.modules := by
  have hread : ofBytes (Text.encode strayText.toList) =
      (importDesign strayTree).mapError .netlist := by
    rw [ofBytes, decode?_strayText]
    dsimp only
    rw [parse?_strayText]
  have hkeyed : strayTree.Keyed := Json.keyed_of_parse? parse?_strayText
  have hdesign : (importDesign strayTree).toOption.isSome = true := by cbv
  cases hd : importDesign strayTree with
  | error fault =>
    rw [hd] at hdesign
    cases hdesign
  | ok design =>
    rw [hd] at hread
    exact ⟨hkeyed, design, hread, rfl, rfl, nets_shared hkeyed hd⟩

end

end ClockNet.NetlistJson

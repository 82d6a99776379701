import ClockNet.Proofs.NetsRead

/-! # What every reading leaves

Whatever the text, a module that is being read keeps to one form: every bit of a wire is tied to
itself, to a constant or to a bit that is tied to itself, and homes of nets and signals of cells are
bits that are tied to themselves (`Tied`). Names stay unique and values are as they are read again
(`Tidy`). Each step of reading only adds ties. -/

namespace ClockNet.NetlistJson

/-! ## The form of a draft -/

/-- A bit that a net is given: a constant, or a bit that is tied to itself. -/
def Stands (ties : List (Bit × Bit)) (b : Bit) : Prop := b.isConst = true ∨ (b, b) ∈ ties

/-- Connections are those of anchored ties, and homes and signals of cells are anchors. -/
structure Tied (ties : List (Bit × Bit)) (d : Draft) : Prop where
  anchored : Anchored ties
  connections : d.module.connections = tieConnections ties
  homes : ∀ net b, d.home? net = some b → (b, b) ∈ ties
  signals : ∀ c ∈ d.module.cells, ∀ e ∈ c.ports.entries, ∀ b ∈ e.2, Stands ties b

/-- Names are unique, values are as they are read again, and offsets are words. -/
structure Tidy (m : Module) : Prop where
  wires_nodup : (m.wires.map (·.name)).Nodup
  cells_nodup : (m.cells.map (·.name)).Nodup
  attributes : rereadAll m.attributes = m.attributes
  wires : ∀ w ∈ m.wires, rereadAll w.attributes = w.attributes ∧ w.offset < signedLimit
  cells : ∀ c ∈ m.cells, rereadAll c.parameters = c.parameters ∧
    rereadAll c.attributes = c.attributes

/-- A draft of a module with a name, between two steps: all bits of its wires are tied. -/
structure Sound (title : String) (ties : List (Bit × Bit)) (d : Draft) : Prop where
  name : d.module.name = title
  tied : Tied ties d
  places : ties.map Prod.fst = d.module.places
  tidy : Tidy d.module

variable {title : String} {ties more : List (Bit × Bit)} {d d' : Draft} {b p t : Bit} {m : Module}

theorem Stands.append (h : Stands ties b) : Stands (ties ++ more) b :=
  h.imp_right (List.mem_append_left _)

/-! ## Ties -/

theorem Tied.add (h : Tied ties d) (hp : p.isConst = false) (hnew : p ∉ ties.map Prod.fst)
    (ht : t = p ∨ Stands ties t)
    (hconnections : d'.module.connections = d.module.connections ++ tieConnections [(p, t)])
    (hcells : d'.module.cells = d.module.cells)
    (hhomes : ∀ net b, d'.home? net = some b → d.home? net = some b ∨ b = p ∧ t = p) :
    Tied (ties ++ [(p, t)]) d' where
  anchored := .add h.anchored hp hnew ht
  connections := by rw [hconnections, h.connections, tieConnections_append]
  homes net b hb := by
    rcases hhomes net b hb with hold | ⟨rfl, rfl⟩
    · exact List.mem_append_left _ (h.homes net b hold)
    · simp
  signals c hc e he b hb := (h.signals c (hcells ▸ hc) e he b hb).append

theorem home?_of_settle {net other : Nat} (h : (d.settle net p).home? other = some b) :
    d.home? other = some b ∨ b = p := by
  rw [home?_settle] at h
  split at h
  · exact .inr (Option.some.inj h).symm
  · exact .inl h

theorem isConst_of_constBit {j : Json} (h : constBit j = .ok b) : b.isConst = true := by
  unfold constBit at h
  split at h <;> cases h <;> rfl

theorem Tied.bindBit (h : Tied ties d) (hp : p.isConst = false) (hnew : p ∉ ties.map Prod.fst)
    {j : Json} (hd : bindBit d p j = .ok d') : ∃ t, Tied (ties ++ [(p, t)]) d' ∧
      d'.module = { d.module with connections := d'.module.connections } := by
  have hconnect : ∀ t, t ≠ p → Stands ties t →
      Tied (ties ++ [(p, t)]) (d.modify (·.connect [p] [t])) := by
    intro t hne ht
    refine h.add hp hnew (.inr ht) ?_ rfl fun net b hb => .inl hb
    rw [tieConnections_single, if_neg hne.symm]
    rfl
  unfold NetlistJson.bindBit at hd
  split at hd
  · rename_i net _
    split at hd
    · rename_i home hhome
      cases hd
      have hmem := h.homes net home hhome
      refine ⟨home, hconnect home ?_ (.inr hmem), rfl⟩
      rintro rfl
      exact hnew (List.mem_map_of_mem hmem)
    · cases hd
      refine ⟨p, h.add hp hnew (.inl rfl) ?_ rfl ?_, rfl⟩
      · rw [tieConnections_single, if_pos rfl, List.append_nil]
        rfl
      · exact fun net' b hb => (home?_of_settle hb).imp_right fun he => ⟨he, rfl⟩
  · obtain ⟨c, hc, rfl⟩ := Text.map_eq_ok.mp hd
    have hconst := isConst_of_constBit hc
    refine ⟨c, hconnect c ?_ (.inl hconst), rfl⟩
    -- a bit of a wire is no constant
    rintro rfl
    rw [hp] at hconst
    cases hconst

/-- Behind a bit of a wire that has been tied, the bits are still untied. -/
theorem not_mem_after {id : WireId} {first : Nat}
    (hnew : ∀ i, first ≤ i → Bit.wire id i ∉ ties.map Prod.fst) (t : Bit) (i : Nat)
    (hi : first + 1 ≤ i) : Bit.wire id i ∉ (ties ++ [(Bit.wire id first, t)]).map Prod.fst := by
  intro hmem
  rw [List.map_append, List.mem_append] at hmem
  rcases hmem with hmem | hmem
  · exact hnew i (Nat.le_of_succ_le hi) hmem
  · have hsame : Bit.wire id i = .wire id first := by simpa using hmem
    have := (Bit.wire.inj hsame).2
    omega

theorem Tied.bindBits (h : Tied ties d) {id : WireId} {first : Nat}
    (hnew : ∀ i, first ≤ i → Bit.wire id i ∉ ties.map Prod.fst) {bits : List Json}
    (hd : bindBits d id first bits = .ok d') : ∃ more, Tied (ties ++ more) d' ∧
      more.map Prod.fst = (List.range' first bits.length).map (Bit.wire id) ∧
      d'.module = { d.module with connections := d'.module.connections } := by
  induction bits generalizing ties d first with
  | nil =>
    cases hd
    exact ⟨[], by rwa [List.append_nil], rfl, rfl⟩
  | cons j rest ih =>
    obtain ⟨d₁, hfirst, hrest⟩ := Text.of_bind_ok hd
    obtain ⟨t, htied, hmodule⟩ := h.bindBit rfl (hnew first (Nat.le_refl _)) hfirst
    obtain ⟨more, htied', hmore, hmodule'⟩ := ih htied (not_mem_after hnew t) hrest
    refine ⟨(.wire id first, t) :: more, ?_, ?_, ?_⟩
    · rwa [List.append_assoc, List.singleton_append] at htied'
    · rw [List.map_cons, hmore, List.length_cons, List.range'_succ, List.map_cons]
    · rw [hmodule', hmodule]

theorem Tied.selves (h : Tied ties d) {bits : Signal} (hbits : ∀ b ∈ bits, b.isConst = false)
    (hnodup : (ties.map Prod.fst ++ bits).Nodup) :
    Tied (ties ++ bits.map fun b => (b, b)) d := by
  induction bits generalizing ties with
  | nil => rwa [List.map_nil, List.append_nil]
  | cons b rest ih =>
    have hnew : b ∉ ties.map Prod.fst := fun hm =>
      (List.nodup_append.mp hnodup).2.2 b hm b List.mem_cons_self rfl
    have hfirst : Tied (ties ++ [(b, b)]) d := by
      refine h.add (hbits b List.mem_cons_self) hnew (.inl rfl) ?_ rfl fun net b hb => .inl hb
      rw [tieConnections_single, if_pos rfl, List.append_nil]
    have hrest := ih hfirst (fun b hb => hbits b (List.mem_cons_of_mem _ hb))
      (by simpa using hnodup)
    rwa [List.append_assoc, List.singleton_append] at hrest

/-! ## Wires -/

theorem places_congr {m m' : Module} (hlength : m'.wires.length = m.wires.length)
    (hwidth : ∀ id, (m'.wire id).width = (m.wire id).width) : m'.places = m.places := by
  unfold Module.places Module.wireIds Module.wireSignal
  rw [hlength]
  simp only [hwidth]

theorem wire_concat {m' : Module} {w : Wire} (h : m'.wires = m.wires ++ [w]) (id : WireId) :
    m'.wire id = if id = m.wires.length then w else m.wire id := by
  unfold Module.wire
  rw [h]
  by_cases hid : id = m.wires.length
  · simp [hid]
  · rw [if_neg hid]
    by_cases hlt : id < m.wires.length
    · rw [List.getElem?_append_left hlt]
    · have hge : (m.wires ++ [w]).length ≤ id := by
        rw [List.length_append, List.length_singleton]
        exact Nat.lt_of_le_of_ne (Nat.le_of_not_lt hlt) (Ne.symm hid)
      rw [List.getElem?_eq_none hge, List.getElem?_eq_none (Nat.le_of_not_lt hlt)]

theorem places_concat {m' : Module} {w : Wire} (h : m'.wires = m.wires ++ [w]) :
    m'.places = m.places ++ Signal.ofWire m.wires.length w.width := by
  have hlength : m'.wires.length = m.wires.length + 1 := by
    rw [h, List.length_append, List.length_singleton]
  have hold : ∀ id ∈ m.wireIds, m'.wireSignal id = m.wireSignal id := by
    intro id hid
    have hne : id ≠ m.wires.length := Nat.ne_of_lt (List.mem_range.mp hid)
    rw [Module.wireSignal, wire_concat h, if_neg hne, Module.wireSignal]
  have hlast : m'.wireSignal m.wires.length = Signal.ofWire m.wires.length w.width := by
    rw [Module.wireSignal, wire_concat h, if_pos rfl]
  have hids : m'.wireIds = m.wireIds ++ [m.wires.length] := by
    rw [Module.wireIds, hlength, List.range_succ, Module.wireIds]
  rw [Module.places, hids, List.flatMap_append, List.flatMap_singleton, hlast, Module.places,
    List.flatMap_congr hold]

theorem Tidy.concat (h : Tidy m) {m' : Module} {w : Wire} (hwires : m'.wires = m.wires ++ [w])
    (hcells : m'.cells = m.cells) (hattributes : m'.attributes = m.attributes)
    (hname : w.name ∉ m.wires.map (·.name)) (hvalues : rereadAll w.attributes = w.attributes)
    (hoffset : w.offset < signedLimit) : Tidy m' where
  wires_nodup := hwires ▸ nodup_concat h.wires_nodup hname
  cells_nodup := hcells ▸ h.cells_nodup
  attributes := by rw [hattributes, h.attributes]
  wires w' hw' := by
    rw [hwires, List.mem_append, List.mem_singleton] at hw'
    rcases hw' with hw' | rfl
    · exact h.wires w' hw'
    · exact ⟨hvalues, hoffset⟩
  cells := hcells ▸ h.cells

theorem wires_bindBit {bit : Bit} {j : Json}
    (h : bindBit d bit j = .ok d') : d'.module.wires = d.module.wires := by
  unfold bindBit at h
  split at h
  · split at h <;> cases h <;> rfl
  · cases hc : constBit j with
    | ok c =>
      rw [hc] at h
      cases h
      rfl
    | error e =>
      rw [hc] at h
      cases h

theorem wires_bindBits {bits : List Json} {id : WireId} {offset : Nat}
    (h : bindBits d id offset bits = .ok d') : d'.module.wires = d.module.wires := by
  induction bits generalizing d offset with
  | nil =>
    cases h
    rfl
  | cons j rest ih =>
    obtain ⟨d₁, hbit, h⟩ := Text.of_bind_ok h
    exact (ih h).trans (wires_bindBit hbit)

theorem length_items_le (j : Json) : j.items.length ≤ j.size := by
  cases j <;> simp [Json.items, Json.size]

theorem Sound.next_not_mem (h : Sound title ties d) (i : Nat) :
    .wire d.module.wires.length i ∉ ties.map Prod.fst := by
  intro hmem
  rw [h.places] at hmem
  exact Nat.lt_irrefl _ (Module.lt_of_place (Module.mem_places.mp hmem).1)

theorem bindWire_ok {name : String} {bits : Json} {id : WireId}
    (h : bindWire d name bits = .ok (id, d')) : d.module.findWire name = none ∧
      id = d.module.wires.length ∧ bindBits { d with
        module := d.module.addWire { name, width := bits.size } } d.module.wires.length 0
        bits.items = .ok d' := by
  unfold bindWire at h
  cases hadd : d.module.addWire? { name, width := bits.size } with
  | none =>
    rw [hadd] at h
    cases h
  | some m =>
    rw [hadd] at h
    obtain ⟨d₁, hbits, hresult⟩ := Text.of_bind_ok h
    obtain ⟨rfl, rfl⟩ := Prod.mk.inj (Except.ok.inj hresult)
    obtain ⟨hnew, rfl⟩ : d.module.findWire name = none ∧
        d.module.addWire { name, width := bits.size } = m := by
      simpa [Module.addWire?] using hadd
    exact ⟨hnew, rfl, hbits⟩

theorem lt_of_bindWire {name : String} {bits : Json} {id : WireId}
    (h : bindWire d name bits = .ok (id, d')) : id < d'.module.wires.length := by
  obtain ⟨-, rfl, hbits⟩ := bindWire_ok h
  rw [wires_bindBits hbits]
  simp [Module.addWire]

/-- A wire that is added has a new name, and its bits are tied. Bits beyond those that are listed
are tied to themselves. -/
theorem Sound.bindWire (h : Sound title ties d) {name : String} {bits : Json} {id : WireId}
    (hd : bindWire d name bits = .ok (id, d')) : (∃ more, Sound title (ties ++ more) d') ∧
      id < d'.module.wires.length ∧ rereadAll (d'.module.wire id).attributes =
        (d'.module.wire id).attributes ∧ (d'.module.wire id).offset < signedLimit := by
  obtain ⟨hnew, rfl, hbits⟩ := bindWire_ok hd
  have hstart : Tied ties { d with module := d.module.addWire { name, width := bits.size } } :=
    ⟨h.tied.anchored, h.tied.connections, h.tied.homes, h.tied.signals⟩
  obtain ⟨more, htied, hmore, hmodule⟩ := hstart.bindBits (fun i _ => h.next_not_mem i) hbits
  have hwires : d'.module.wires = d.module.wires ++ [{ name, width := bits.size }] := by
    rw [hmodule]
    rfl
  -- an object counts its fields as bits but lists none
  let unlisted : Signal := (List.range' bits.items.length (bits.size - bits.items.length)).map
    (Bit.wire d.module.wires.length)
  have hall : (ties ++ more).map Prod.fst ++ unlisted = d'.module.places := by
    have hrange : List.range' 0 bits.items.length ++
        List.range' bits.items.length (bits.size - bits.items.length) = List.range bits.size := by
      have happend := List.range'_append_1 (s := 0) (m := bits.items.length)
        (n := bits.size - bits.items.length)
      rw [Nat.zero_add, Nat.add_sub_of_le (length_items_le bits)] at happend
      rw [happend, List.range_eq_range']
    rw [places_concat hwires, List.map_append, h.places, hmore, List.append_assoc,
      ← List.map_append, hrange]
    rfl
  have hunlisted : ∀ b ∈ unlisted, b.isConst = false := by
    intro b hb
    obtain ⟨i, -, rfl⟩ := List.mem_map.mp hb
    rfl
  have hself := htied.selves hunlisted (hall ▸ Module.nodup_places _)
  have hzero : (0 : Int) < signedLimit := by decide
  refine ⟨⟨more ++ unlisted.map fun b => (b, b), ?_, ?_, ?_, ?_⟩, ?_, ?_⟩
  · rw [hmodule]
    exact h.name
  · rwa [← List.append_assoc]
  · rw [← hall]
    simp [Function.comp_def]
  · exact h.tidy.concat hwires (by rw [hmodule]; rfl) (by rw [hmodule]; rfl)
      (Module.findWire_eq_none.mp hnew) rfl hzero
  · simp [hwires]
  · rw [wire_concat hwires, if_pos rfl]
    exact ⟨rfl, hzero⟩

theorem Sound.updateWire (h : Sound title ties d) {id : WireId} (hid : id < d.module.wires.length)
    {step : Wire → Except Fault Wire}
    (hstep : ∀ w, step (d.module.wire id) = .ok w → w.name = (d.module.wire id).name ∧
      w.width = (d.module.wire id).width ∧ rereadAll w.attributes = w.attributes ∧
      w.offset < signedLimit)
    (hd : updateWire d id step = .ok d') : Sound title ties d' := by
  obtain ⟨w, hw, hresult⟩ := Text.of_bind_ok hd
  obtain rfl := Except.ok.inj hresult
  obtain ⟨hname, hwidth, hvalues, hoffset⟩ := hstep w hw
  let m := d.module.modifyWire id fun _ => w
  have hlength : m.wires.length = d.module.wires.length := Module.length_modifyWire _ _ _
  have hwire : ∀ i, m.wire i = if id = i then w else d.module.wire i := by
    intro i
    rw [Module.wire_modifyWire]
    by_cases he : id = i
    · rw [if_pos he, if_pos ⟨he, he ▸ hid⟩]
    · rw [if_neg he, if_neg fun h => he h.1]
  have hsame : ∀ i, (m.wire i).name = (d.module.wire i).name ∧
      (m.wire i).width = (d.module.wire i).width := by
    intro i
    rw [hwire]
    split
    · rename_i he
      exact he ▸ ⟨hname, hwidth⟩
    · exact ⟨rfl, rfl⟩
  refine ⟨h.name, ⟨h.tied.anchored, h.tied.connections, h.tied.homes, h.tied.signals⟩, ?_, ?_⟩
  · exact h.places.trans (places_congr hlength fun i => (hsame i).2).symm
  · refine ⟨?_, h.tidy.cells_nodup, h.tidy.attributes, ?_, h.tidy.cells⟩
    · refine Module.wires_nodup_of_inj (m := m) fun i hi j hj he => ?_
      rw [(hsame i).1, (hsame j).1] at he
      exact Module.wire_inj_of_name h.tidy.wires_nodup (hlength ▸ hi) (hlength ▸ hj) he
    · show ∀ w' ∈ m.wires, _
      intro w' hw'
      obtain ⟨i, hi, rfl⟩ := List.getElem_of_mem hw'
      rw [← Module.wire_eq_getElem hi, hwire]
      split
      · exact ⟨hvalues, hoffset⟩
      · exact h.tidy.wires _ (Module.wire_mem (hlength ▸ hi))

theorem lt_of_toInt? {j : Json} {i : Int} (h : j.toInt? = some i) : i < signedLimit := by
  cases j with
  | number n =>
    rw [Json.toInt?, Json.Number.toInt?, Option.ite_none_left_eq_some] at h
    exact Option.some.inj h.2 ▸ (word_bounds _).2
  | _ => cases h

/-- The numbering and the sign of a wire are set and nothing else, to an offset that is a word. -/
theorem importShape_ok {w w' : Wire} {j : Json} (h : importShape w j = .ok w')
    (hoffset : w.offset < signedLimit) : w'.name = w.name ∧ w'.width = w.width ∧
      w'.attributes = w.attributes ∧ w'.offset < signedLimit := by
  unfold importShape at h
  dsimp only at h
  split at h
  · obtain rfl := Except.ok.inj h
    exact ⟨rfl, rfl, rfl, hoffset⟩
  · split at h
    · rename_i found hfound
      obtain rfl := Except.ok.inj h
      exact ⟨rfl, rfl, rfl, lt_of_toInt? hfound⟩
    · cases h

theorem Sound.importNet (h : Sound title ties d) {name : String} {j : Json}
    (hd : importNet d name j = .ok d') : ∃ more, Sound title (ties ++ more) d' := by
  obtain ⟨⟨id, d₁⟩, hbind, hupdate⟩ := Text.of_bind_ok hd
  obtain ⟨⟨more, hsound⟩, hid, -, hoffset⟩ := h.bindWire hbind
  refine ⟨more, hsound.updateWire hid ?_ hupdate⟩
  intro w hw
  obtain ⟨attributes, hattributes, hshape⟩ := Text.of_bind_ok hw
  obtain ⟨hname, hwidth, hsame, hoffset'⟩ := importShape_ok hshape hoffset
  refine ⟨hname, hwidth, ?_, hoffset'⟩
  rw [hsame]
  exact rereadAll_of_importAttributes hattributes

theorem portStep_ok {w w' : Wire} {j : Json} {position : Nat} {direction : Direction}
    (h : (do
      let w ← importShape w j
      .ok { w with position, isInput := direction.isInput, isOutput := direction.isOutput }) =
        Except.ok w')
    (hoffset : w.offset < signedLimit) : w'.name = w.name ∧ w'.width = w.width ∧
      w'.attributes = w.attributes ∧ w'.offset < signedLimit := by
  obtain ⟨w₁, hshape, hresult⟩ := Text.of_bind_ok h
  obtain rfl := Except.ok.inj hresult
  have hkept := importShape_ok hshape hoffset
  exact hkept

/-- A port takes the wire of its name, or adds one, and makes it a port. -/
theorem importPort_ok {position : Nat} {direction : Direction} {name : String} {j : Json}
    (h : importPort d position direction name j = .ok d') : ∃ id d₁,
      (d.module.findWire name = some id ∧ d₁ = d ∨ d.module.findWire name = none ∧
        bindWire d name (j.field "bits") = .ok (id, d₁)) ∧
      updateWire d₁ id (fun w => do
        let w ← importShape w j
        .ok { w with position, isInput := direction.isInput, isOutput := direction.isOutput }) =
          .ok d' := by
  unfold importPort at h
  cases hfind : d.module.findWire name with
  | some id =>
    rw [hfind] at h
    exact ⟨id, d, .inl ⟨rfl, rfl⟩, h⟩
  | none =>
    rw [hfind] at h
    obtain ⟨⟨id, d₁⟩, hbind, hupdate⟩ := Text.of_bind_ok h
    exact ⟨id, d₁, .inr ⟨rfl, hbind⟩, hupdate⟩

theorem Sound.importPort (h : Sound title ties d) {position : Nat} {direction : Direction}
    {name : String} {j : Json} (hd : importPort d position direction name j = .ok d') :
    ∃ more, Sound title (ties ++ more) d' := by
  obtain ⟨id, d₁, hwire, hupdate⟩ := importPort_ok hd
  have hfound : (∃ more, Sound title (ties ++ more) d₁) ∧ id < d₁.module.wires.length ∧
      rereadAll (d₁.module.wire id).attributes = (d₁.module.wire id).attributes ∧
      (d₁.module.wire id).offset < signedLimit := by
    rcases hwire with ⟨hfind, rfl⟩ | ⟨-, hbind⟩
    · have hid := (Module.name_of_findWire hfind).1
      exact ⟨⟨[], by rwa [List.append_nil]⟩, hid, h.tidy.wires _ (Module.wire_mem hid)⟩
    · exact h.bindWire hbind
  obtain ⟨⟨more, hsound⟩, hid, hvalues, hoffset⟩ := hfound
  refine ⟨more, hsound.updateWire hid ?_ hupdate⟩
  intro w hw
  obtain ⟨hname, hwidth, hsame, hoffset'⟩ := portStep_ok hw hoffset
  exact ⟨hname, hwidth, by rw [hsame, hvalues], hoffset'⟩

theorem Sound.importPorts {ports : List (Direction × String × Json)} {position : Nat}
    (h : Sound title ties d) (hd : importPorts d position ports = .ok d') :
    ∃ more, Sound title (ties ++ more) d' := by
  induction ports generalizing ties d position with
  | nil =>
    cases hd
    exact ⟨[], by rwa [List.append_nil]⟩
  | cons port rest ih =>
    obtain ⟨d₁, hfirst, hrest⟩ := Text.of_bind_ok hd
    obtain ⟨more, hsound⟩ := h.importPort hfirst
    obtain ⟨more', hsound'⟩ := ih hsound hrest
    exact ⟨more ++ more', by rwa [← List.append_assoc]⟩

/-! ## Cells -/

/-- A bit of a cell's port is an anchor or a constant; a net without a home gets a wire, whose only
bit becomes the home. -/
theorem Sound.signalBit (h : Sound title ties d) {j : Json} (hd : signalBit d j = .ok (b, d')) :
    ∃ more, Sound title (ties ++ more) d' ∧ Stands (ties ++ more) b ∧
      d'.module.cells = d.module.cells := by
  unfold NetlistJson.signalBit at hd
  split at hd
  · rename_i net _
    split at hd
    · rename_i home hhome
      obtain ⟨rfl, rfl⟩ := Prod.mk.inj (Except.ok.inj hd)
      refine ⟨[], ?_, .inr ?_, rfl⟩
      · rwa [List.append_nil]
      · rw [List.append_nil]
        exact h.tied.homes net _ hhome
    · obtain ⟨rfl, rfl⟩ := Prod.mk.inj (Except.ok.inj hd)
      have hname := Module.freshName_not_mem d.module "$json"
      refine ⟨[(.wire d.module.wires.length 0, .wire d.module.wires.length 0)],
        ⟨h.name, h.tied.add rfl (h.next_not_mem 0) (.inl rfl) ?_ rfl ?_, ?_, ?_⟩, .inr (by simp),
        rfl⟩
      · rw [tieConnections_single, if_pos rfl, List.append_nil]
        rfl
      · exact fun net' b hb => (home?_of_settle hb).imp_right fun he => ⟨he, rfl⟩
      · refine Eq.trans ?_ (places_concat (m := d.module) rfl).symm
        rw [List.map_append, h.places]
        rfl
      · have hzero : (0 : Int) < signedLimit := by decide
        exact h.tidy.concat rfl rfl rfl (fun hmem => hname (List.mem_append_left _ hmem)) rfl hzero
  · obtain ⟨c, hc, hresult⟩ := Text.map_eq_ok.mp hd
    obtain ⟨rfl, rfl⟩ := Prod.mk.inj hresult
    exact ⟨[], by rwa [List.append_nil], .inl (isConst_of_constBit hc), rfl⟩

theorem Sound.signalBits {bits : List Json} {s : Signal} (h : Sound title ties d)
    (hd : signalBits d bits = .ok (s, d')) : ∃ more, Sound title (ties ++ more) d' ∧
      (∀ b ∈ s, Stands (ties ++ more) b) ∧ d'.module.cells = d.module.cells := by
  induction bits generalizing ties d s with
  | nil =>
    obtain ⟨rfl, rfl⟩ := Prod.mk.inj (Except.ok.inj hd)
    exact ⟨[], by rwa [List.append_nil], by simp, rfl⟩
  | cons j rest ih =>
    obtain ⟨⟨b, d₁⟩, hfirst, hd⟩ := Text.of_bind_ok hd
    obtain ⟨⟨s', d₂⟩, hrest, hresult⟩ := Text.of_bind_ok hd
    obtain ⟨rfl, rfl⟩ := Prod.mk.inj (Except.ok.inj hresult)
    obtain ⟨more, hsound, hb, hcells⟩ := h.signalBit hfirst
    obtain ⟨more', hsound', hs, hcells'⟩ := ih hsound hrest
    refine ⟨more ++ more', by rwa [← List.append_assoc], ?_, hcells'.trans hcells⟩
    rw [← List.append_assoc]
    intro b' hb'
    rcases List.mem_cons.mp hb' with rfl | hb'
    · exact hb.append
    · exact hs b' hb'

/-- A signal is read from an array only, bit by bit. -/
theorem signalBits_of_importSignal {j : Json} {s : Signal} (h : importSignal d j = .ok (s, d')) :
    signalBits d j.items = .ok (s, d') := by
  unfold importSignal at h
  split at h
  · exact h
  · cases h

theorem Sound.importConnections {fields : List (String × Json)}
    {connections : List (String × Signal)} (h : Sound title ties d)
    (hd : importConnections d fields = .ok (connections, d')) :
    ∃ more, Sound title (ties ++ more) d' ∧
      (∀ e ∈ connections, ∀ b ∈ e.2, Stands (ties ++ more) b) ∧
      d'.module.cells = d.module.cells := by
  induction fields generalizing ties d connections with
  | nil =>
    obtain ⟨rfl, rfl⟩ := Prod.mk.inj (Except.ok.inj hd)
    exact ⟨[], by rwa [List.append_nil], by simp, rfl⟩
  | cons field rest ih =>
    obtain ⟨⟨s, d₁⟩, hfirst, hd⟩ := Text.of_bind_ok hd
    obtain ⟨⟨connections', d₂⟩, hrest, hresult⟩ := Text.of_bind_ok hd
    obtain ⟨rfl, rfl⟩ := Prod.mk.inj (Except.ok.inj hresult)
    obtain ⟨more, hsound, hs, hcells⟩ := h.signalBits (signalBits_of_importSignal hfirst)
    obtain ⟨more', hsound', hrest', hcells'⟩ := ih hsound hrest
    refine ⟨more ++ more', by rwa [← List.append_assoc], ?_, hcells'.trans hcells⟩
    rw [← List.append_assoc]
    intro e he b hb
    rcases List.mem_cons.mp he with rfl | he
    · exact (hs b hb).append
    · exact hrest' e he b hb

theorem cells_signalBits {bits : List Json} {s : Signal}
    (h : signalBits d bits = .ok (s, d')) : d'.module.cells = d.module.cells := by
  induction bits generalizing d s with
  | nil =>
    cases h
    rfl
  | cons j rest ih =>
    obtain ⟨⟨bit, d₁⟩, hbit, h⟩ := Text.of_bind_ok h
    obtain ⟨⟨more, d₂⟩, hrest, h⟩ := Text.of_bind_ok h
    cases h
    refine (ih hrest).trans ?_
    unfold signalBit at hbit
    split at hbit
    · split at hbit <;> cases hbit <;> rfl
    · cases hc : constBit j with
      | ok c =>
        rw [hc] at hbit
        cases hbit
        rfl
      | error e =>
        rw [hc] at hbit
        cases hbit

theorem cells_importConnections {fields : List (String × Json)}
    {connections : List (String × Signal)}
    (h : importConnections d fields = .ok (connections, d')) :
    d'.module.cells = d.module.cells := by
  induction fields generalizing d connections with
  | nil =>
    cases h
    rfl
  | cons field rest ih =>
    obtain ⟨⟨s, d₁⟩, hsignal, h⟩ := Text.of_bind_ok h
    obtain ⟨⟨more, d₂⟩, hrest, h⟩ := Text.of_bind_ok h
    cases h
    refine (ih hrest).trans ?_
    unfold importSignal at hsignal
    split at hsignal
    · exact cells_signalBits hsignal
    · cases hsignal

theorem mem_foldl_set {β : Type} {entries : List (String × β)} {t : OrderedTable β}
    {e : String × β} (h : e ∈ (entries.foldl (fun t e => t.set e.1 e.2) t).entries) :
    e ∈ t.entries ∨ e ∈ entries := by
  induction entries generalizing t with
  | nil => exact .inl h
  | cons x rest ih =>
    rcases ih h with hmem | hmem
    · exact (OrderedTable.mem_replaceOrAppend hmem).imp_right fun he => List.mem_cons.mpr (.inl he)
    · exact .inr (List.mem_cons_of_mem _ hmem)

theorem Sound.importCell (h : Sound title ties d) {name : String} {j : Json}
    (hd : importCell d name j = .ok d') : ∃ more, Sound title (ties ++ more) d' := by
  unfold NetlistJson.importCell at hd
  split at hd
  · rename_i type _
    split at hd
    · cases hd
    · rename_i hfind
      obtain ⟨⟨connections, d₁⟩, hconnections, hd⟩ := Text.of_bind_ok hd
      obtain ⟨parameters, hparameters, hd⟩ := Text.of_bind_ok hd
      obtain ⟨attributes, hattributes, hd⟩ := Text.of_bind_ok hd
      obtain ⟨directions, -, hresult⟩ := Text.of_bind_ok hd
      obtain rfl := Except.ok.inj hresult
      obtain ⟨more, hsound, hstands, hcells⟩ := h.importConnections hconnections
      have hnew : name ∉ d₁.module.cells.map (·.name) := by
        rw [hcells]
        exact Module.findCell_eq_none.mp (by simpa using hfind)
      refine ⟨more, hsound.name,
        ⟨hsound.tied.anchored, hsound.tied.connections, hsound.tied.homes, ?_⟩,
        hsound.places, ⟨hsound.tidy.wires_nodup, ?_, hsound.tidy.attributes, hsound.tidy.wires, ?_⟩⟩
      · intro c hc e he b hb
        rcases List.mem_append.mp hc with hc | hc
        · exact hsound.tied.signals c hc e he b hb
        · obtain rfl := List.mem_singleton.mp hc
          rcases mem_foldl_set he with he | he
          · cases he
          · exact hstands e he b hb
      · exact nodup_concat hsound.tidy.cells_nodup hnew
      · intro c hc
        rcases List.mem_append.mp hc with hc | hc
        · exact hsound.tidy.cells c hc
        · obtain rfl := List.mem_singleton.mp hc
          exact ⟨rereadAll_of_importAttributes hparameters,
            rereadAll_of_importAttributes hattributes⟩
  · cases hd

theorem Sound.start (title : String) {j : Json} {attributes : Attributes}
    (h : importAttributes j = .ok attributes) :
    Sound title [] { module := { name := title, attributes } } := by
  refine ⟨rfl, ⟨.nil, rfl, ?_, ?_⟩, rfl, ⟨List.nodup_nil, List.nodup_nil,
    rereadAll_of_importAttributes h, ?_, ?_⟩⟩
  · intro net b hb
    cases hb
  all_goals
    intro _ hmem
    cases hmem

end ClockNet.NetlistJson

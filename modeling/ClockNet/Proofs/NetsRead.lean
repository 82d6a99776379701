import ClockNet.Proofs.Numbering
import ClockNet.Proofs.Values

/-! # Written nets read back

Reading goes through the wires of a written module in their order and meets the nets as they were
numbered. The home of a net that it remembers is therefore the home of that net in the module that
was written (`Follows`), and every bit of a wire is connected to its home (`importNets`). -/

namespace ClockNet.NetlistJson

/-! ## What is read -/

/-- The wire with its attributes as they are read. -/
def rereadWire (w : Wire) : Wire := { w with attributes := rereadAll w.attributes }

/-- The wire before ports are read. -/
def plainWire (w : Wire) : Wire :=
  { rereadWire w with isInput := false, isOutput := false, position := 0 }

/-! ## Bits -/

theorem constBit_toChar (t : Trit) : constBit (.string t.toChar.toString) = .ok (.const t) := by
  cases t <;> rfl

theorem home?_settle (d : Draft) (net : Nat) (bit : Bit) (other : Nat) :
    (d.settle net bit).home? other = if net = other then some bit else d.home? other := by
  by_cases h : net = other <;> simp [Draft.settle, Draft.home?, h]

section
variable (m : Module) (nets : Numbering)

/-- The numbering tells the nets of all bits of wires apart. -/
def Covers : Prop :=
  ∀ p ∈ m.places, (m.aliases.root p).isConst = false → m.aliases.root p ∈ nets

/-- The bits read so far are connected to their homes, and the homes of their nets are known. -/
structure Follows (before : Signal) (d : Draft) : Prop where
  connections : d.module.connections = tieConnections (m.homes before)
  homes : ∀ r ∈ nets, r.isConst = false →
    d.home? (nets.idxOf r + firstNet) = before.find? fun p => m.aliases.root p == r

end

section
variable {m : Module} {nets : Numbering} {before : Signal} {d : Draft}

theorem Follows.modules (h : Follows m nets before d) :
    d.module = { d.module with connections := tieConnections (m.homes before) } := by
  rw [← h.connections]

theorem find?_concat (before : Signal) (p r : Bit) :
    ((before ++ [p]).find? fun q => m.aliases.root q == r) =
      (before.find? fun q => m.aliases.root q == r).or
        (if m.aliases.root p = r then some p else none) := by
  rw [List.find?_append]
  by_cases hr : m.aliases.root p = r <;> simp [hr]

theorem Follows.concat (h : Follows m nets before d) (p : Bit) :
    tieConnections (m.homes (before ++ [p])) = d.module.connections ++
      if p = m.homeOf p then [] else [([p], [m.homeOf p])] := by
  rw [Module.homes_append, tieConnections_append, h.connections]
  exact congrArg _ (tieConnections_single p (m.homeOf p))

/-- A bit of a net whose home is known, or which has none, is connected. -/
theorem Follows.connect (h : Follows m nets before d) {p t : Bit} (hhome : m.homeOf p = t)
    (hne : p ≠ t) (hkept : ∀ r ∈ nets, r.isConst = false →
      ((before ++ [p]).find? fun q => m.aliases.root q == r) =
        before.find? fun q => m.aliases.root q == r) :
    Follows m nets (before ++ [p]) (d.modify (·.connect [p] [t])) ∧
      (d.modify (·.connect [p] [t])).module =
        { d.module with connections := tieConnections (m.homes (before ++ [p])) } := by
  have hd : tieConnections (m.homes (before ++ [p])) = d.module.connections ++ [([p], [t])] := by
    rw [h.concat, hhome, if_neg hne]
  rw [hd]
  refine ⟨⟨hd.symm, fun r hmem hr => ?_⟩, rfl⟩
  rw [hkept r hmem hr]
  exact h.homes r hmem hr

theorem Follows.settle (h : Follows m nets before d) {p : Bit}
    (hmem : m.aliases.root p ∈ nets) (hhome : m.homeOf p = p)
    (hnone : (before.find? fun q => m.aliases.root q == m.aliases.root p) = none) :
    Follows m nets (before ++ [p]) (d.settle (nets.idxOf (m.aliases.root p) + firstNet) p) ∧
      d.module = { d.module with connections := tieConnections (m.homes (before ++ [p])) } := by
  have hd : tieConnections (m.homes (before ++ [p])) = d.module.connections := by
    rw [h.concat, hhome, if_pos rfl, List.append_nil]
  rw [hd]
  refine ⟨⟨hd.symm, fun r hr hrc => ?_⟩, rfl⟩
  rw [find?_concat]
  by_cases hsame : m.aliases.root p = r
  · subst hsame
    rw [hnone, if_pos rfl, home?_settle, if_pos rfl]
    rfl
  · have hnumber : ¬ nets.idxOf (m.aliases.root p) + firstNet = nets.idxOf r + firstNet := by
      intro he
      exact hsame ((List.idxOf_inj hmem).mp (Nat.add_right_cancel he))
    rw [if_neg hsame, Option.or_none, ← h.homes r hr hrc, home?_settle, if_neg hnumber]

/-- A bit of a wire is connected to its home, or becomes the home. -/
theorem bindBit_bitJson (hc : Covers m nets) (h : Follows m nets before d) {p : Bit}
    (hp : before ++ [p] <+: m.places) : ∃ d', bindBit d p (bitJson m.aliases nets p) = .ok d' ∧
      Follows m nets (before ++ [p]) d' ∧
      d'.module = { d.module with connections := tieConnections (m.homes (before ++ [p])) } := by
  have hplace : p ∈ m.places := hp.subset (by simp)
  have hbefore : before <+: m.places := (List.prefix_append _ _).trans hp
  have hpconst := (Module.mem_places.mp hplace).2
  cases hr : m.aliases.root p with
  | const t =>
    have hjson : bitJson m.aliases nets p = .string t.toChar.toString := by rw [bitJson, hr]
    have hne : p ≠ .const t := by
      rintro rfl
      cases hpconst
    -- a bit on a constant is the home of no net
    have hkept : ∀ r ∈ nets, r.isConst = false →
        ((before ++ [p]).find? fun q => m.aliases.root q == r) =
          before.find? fun q => m.aliases.root q == r := by
      intro r _ hrc
      have hother : ¬ m.aliases.root p = r := by
        rintro rfl
        rw [hr] at hrc
        cases hrc
      rw [find?_concat, if_neg hother, Option.or_none]
    refine ⟨_, ?_, h.connect (Module.homeOf_of_root_const hr) hne hkept⟩
    rw [hjson, bindBit, constBit_toChar]
    rfl
  | wire id i =>
    have hrc : (m.aliases.root p).isConst = false := by rw [hr]; rfl
    have hmem := hc p hplace hrc
    have hjson : (bitJson m.aliases nets p).toNat? =
        some (nets.idxOf (m.aliases.root p) + firstNet) := by
      rw [bitJson, hr]
      rfl
    unfold bindBit
    rw [hjson]
    dsimp only
    rw [h.homes _ hmem hrc]
    cases hq : before.find? fun q => m.aliases.root q == m.aliases.root p with
    | some q =>
      have hnew : p ∉ before := fun hm =>
        (List.nodup_append.mp (m.nodup_places.sublist hp.sublist)).2.2 p hm p (by simp) rfl
      have hne : p ≠ q := fun he => hnew (he ▸ List.mem_of_find?_eq_some hq)
      -- the net has a home already, and looking further finds the same one
      refine ⟨_, rfl, h.connect (Module.homeOf_of_find? hbefore hrc hq) hne fun r _ _ => ?_⟩
      rw [find?_concat]
      by_cases hsame : m.aliases.root p = r
      · rw [← hsame, hq]
        rfl
      · rw [if_neg hsame, Option.or_none]
    | none => exact ⟨_, rfl, h.settle hmem (Module.homeOf_of_new hp hrc hq) hq⟩

theorem bindBits_bitJson (hc : Covers m nets) (h : Follows m nets before d) (id : WireId)
    (first count : Nat)
    (hp : before ++ (List.range' first count).map (Bit.wire id) <+: m.places) :
    ∃ d', bindBits d id first
        (((List.range' first count).map (Bit.wire id)).map (bitJson m.aliases nets)) = .ok d' ∧
      Follows m nets (before ++ (List.range' first count).map (Bit.wire id)) d' ∧
      d'.module = { d.module with
        connections := tieConnections
          (m.homes (before ++ (List.range' first count).map (Bit.wire id))) } := by
  induction count generalizing first before d with
  | zero =>
    rw [List.range'_zero, List.map_nil, List.append_nil]
    exact ⟨d, rfl, h, h.modules⟩
  | succ count ih =>
    have hsplit : before ++ (List.range' first (count + 1)).map (Bit.wire id) =
        before ++ [.wire id first] ++ (List.range' (first + 1) count).map (Bit.wire id) := by
      simp [List.range'_succ]
    rw [hsplit] at hp ⊢
    obtain ⟨d₁, hstep, hfollows, hmodule⟩ := bindBit_bitJson hc h
      ((List.prefix_append _ _).trans hp)
    obtain ⟨d₂, hrest, hfollows₂, hmodule₂⟩ := ih hfollows (first + 1) hp
    refine ⟨d₂, ?_, hfollows₂, ?_⟩
    · rw [List.range'_succ, List.map_cons, List.map_cons, bindBits, hstep]
      exact hrest
    · rw [hmodule₂, hmodule]

/-! ## Wires -/

theorem bindWire_signalJson (hc : Covers m nets) (h : Follows m nets before d) {name : String}
    (hname : name ∉ d.module.wires.map (·.name))
    (hp : before ++ m.wireSignal d.module.wires.length <+: m.places) :
    ∃ d', bindWire d name (signalJson m.aliases nets (m.wireSignal d.module.wires.length)) =
        .ok (d.module.wires.length, d') ∧
      Follows m nets (before ++ m.wireSignal d.module.wires.length) d' ∧
      d'.module = { d.module with
        wires := d.module.wires ++ [{ name, width := (m.wire d.module.wires.length).width }]
        connections := tieConnections
          (m.homes (before ++ m.wireSignal d.module.wires.length)) } := by
  let id := d.module.wires.length
  let w : Wire := { name, width := (m.wire id).width }
  have hnew : d.module.findWire name = none := Module.findWire_eq_none.mpr hname
  have hsize : (signalJson m.aliases nets (m.wireSignal id)).size = (m.wire id).width := by
    simp [signalJson, Json.size, Module.wireSignal, Signal.ofWire]
  have hadd : d.module.addWire? { name, width := (m.wire id).width } =
      some (d.module.addWire w) := if_pos hnew
  have hbits : m.wireSignal id = (List.range' 0 (m.wire id).width).map (Bit.wire id) := by
    rw [← List.range_eq_range']
    rfl
  have hstart : Follows m nets before { d with module := d.module.addWire w } :=
    ⟨h.connections, h.homes⟩
  rw [hbits] at hp
  obtain ⟨d', hd', hfollows, hmodule⟩ := bindBits_bitJson hc hstart id 0 (m.wire id).width hp
  rw [← hbits] at hd' hfollows hmodule
  refine ⟨d', ?_, hfollows, hmodule⟩
  unfold bindWire
  rw [hsize, hadd]
  show (bindBits { d with module := d.module.addWire w } id 0
    ((m.wireSignal id).map (bitJson m.aliases nets)) >>= fun d => Except.ok (id, d)) = _
  rw [hd']
  rfl

/-! ## Nets -/

theorem keys_exportShape (w : Wire) : ∀ key ∈ (exportShape w).map Prod.fst, key ∈ shapeKeys := by
  unfold exportShape
  cases w.upto <;> cases w.signed <;> by_cases hz : w.offset = 0 <;> simp [hz, shapeKeys]

/-- The offsets of wires are words that have a negative. -/
def OffsetsFit (m : Module) : Prop :=
  ∀ w ∈ m.wires, -signedLimit < w.offset ∧ w.offset < signedLimit

instance (m : Module) : Decidable (OffsetsFit m) :=
  inferInstanceAs (Decidable (∀ w ∈ m.wires, -signedLimit < w.offset ∧ w.offset < signedLimit))

/-- The module when the nets of some wires have been read. -/
def netsRead (m : Module) (done : List WireId) : Module :=
  { name := m.name
    attributes := rereadAll m.attributes
    wires := done.map fun id => plainWire (m.wire id)
    connections := tieConnections (m.homes (done.flatMap m.wireSignal)) }

theorem eq_length_of_range {n : Nat} {done rest : List Nat} {id : Nat}
    (h : done ++ id :: rest = List.range n) : id = done.length := by
  have hlt : done.length < n := by
    have := congrArg List.length h
    simp at this
    omega
  have hget : (done ++ id :: rest)[done.length]? = (List.range n)[done.length]? := by rw [h]
  simpa [hlt] using hget

theorem map_wire_wireIds (m : Module) : m.wireIds.map m.wire = m.wires := by
  refine List.ext_getElem (by simp [Module.wireIds]) ?_
  intro i hi hi'
  simp [Module.wireIds, Module.wire_eq_getElem hi']

theorem updateWire_ok {id : WireId} {step : Wire → Except Fault Wire} {w : Wire}
    (h : step (d.module.wire id) = .ok w) :
    updateWire d id step = .ok (d.modify (·.modifyWire id fun _ => w)) := by
  rw [updateWire, h]
  rfl

theorem importShape_wireEntry (ho : OffsetsFit m) {id : WireId} (hid : id < m.wires.length)
    {start : Wire} (hstart : start = { name := (m.wire id).name, width := (m.wire id).width }) :
    (do
      let attributes ← importAttributes ((wireEntry m nets id).2.field "attributes")
      importShape { start with attributes } (wireEntry m nets id).2) =
        .ok (plainWire (m.wire id)) := by
  let fields := [("hide_name", hideName (m.wire id).name),
    ("bits", signalJson m.aliases nets (m.wireSignal id))]
  let attributes := [("attributes", exportAttributes (m.wire id).attributes)]
  have hattributes : (wireEntry m nets id).2.field "attributes" =
      exportAttributes (m.wire id).attributes := by
    have hkey : "attributes" ∉ (fields ++ exportShape (m.wire id)).map Prod.fst := by
      intro hmem
      rw [List.map_append, List.mem_append] at hmem
      rcases hmem with hmem | hmem
      · revert hmem
        simp [fields]
      · exact absurd (keys_exportShape _ _ hmem) (by decide)
    have hfield : (Json.object (fields ++ exportShape (m.wire id) ++ attributes ++ [])).field
        "attributes" = (Json.object attributes).field "attributes" := field_between hkey (by simp)
    rw [List.append_nil] at hfield
    exact hfield
  have hfits := ho _ (Module.wire_mem hid)
  rw [hattributes, importAttributes_exportAttributes]
  show importShape { start with attributes := rereadAll (m.wire id).attributes }
    (.object (fields ++ exportShape (m.wire id) ++ attributes)) = _
  rw [importShape_exportShape (by simp [shapeKeys, fields]) (by simp [shapeKeys, attributes])
    (Int.le_of_lt hfits.1) hfits.2 (.inl (by rw [hstart])), hstart]
  simp [plainWire, rereadWire]

theorem importNet_wireEntry (hm : m.WellFormed) (ho : OffsetsFit m) (hc : Covers m nets)
    {done rest : List WireId} {id : WireId} (hids : done ++ id :: rest = m.wireIds)
    (h : Follows m nets (done.flatMap m.wireSignal) d) (hd : d.module = netsRead m done) :
    ∃ d', importNet d (wireEntry m nets id).1 (wireEntry m nets id).2 = .ok d' ∧
      Follows m nets ((done ++ [id]).flatMap m.wireSignal) d' ∧
      d'.module = netsRead m (done ++ [id]) := by
  have hid : id = done.length := eq_length_of_range hids
  have hlen : d.module.wires.length = id := by simp [hd, netsRead, hid]
  have hlt : id < m.wires.length := by
    have hmem : id ∈ m.wireIds := by rw [← hids]; simp
    exact List.mem_range.mp hmem
  have hname : (m.wire id).name ∉ d.module.wires.map (·.name) := by
    have hnames := hm.wires_nodup
    rw [← map_wire_wireIds m, List.map_map, ← hids] at hnames
    rw [hd, netsRead, List.map_map]
    exact not_mem_before hnames
  have hprefix : done.flatMap m.wireSignal ++ m.wireSignal d.module.wires.length <+: m.places := by
    refine ⟨rest.flatMap m.wireSignal, ?_⟩
    rw [hlen, Module.places, ← hids]
    simp
  have hmore : (done ++ [id]).flatMap m.wireSignal =
      done.flatMap m.wireSignal ++ m.wireSignal d.module.wires.length := by simp [hlen]
  obtain ⟨d₁, hbind, hfollows, hmodule⟩ := bindWire_signalJson hc h hname hprefix
  rw [← hmore] at hfollows hmodule
  rw [hlen] at hbind hmodule
  have hwire : d₁.module.wire id = { name := (m.wire id).name, width := (m.wire id).width } := by
    rw [hmodule, Module.wire, ← hlen]
    simp
  refine ⟨d₁.modify (·.modifyWire id fun _ => plainWire (m.wire id)), ?_,
    ⟨hfollows.connections, hfollows.homes⟩, ?_⟩
  · show (bindWire d (m.wire id).name (signalJson m.aliases nets (m.wireSignal id)) >>= _) = _
    rw [hbind]
    exact @updateWire_ok d₁ id (fun w => do
      let attributes ← importAttributes ((wireEntry m nets id).2.field "attributes")
      importShape { w with attributes } (wireEntry m nets id).2) _
        (importShape_wireEntry ho hlt hwire)
  · have hplace : id = (done.map fun id => plainWire (m.wire id)).length := by simp [hid]
    show d₁.module.modifyWire id _ = _
    rw [hmodule, hd, netsRead, netsRead, Module.modifyWire, List.map_append, List.map_singleton]
    simp only [Module.mk.injEq, true_and, and_true]
    conv_lhs => rw [hplace]
    rw [modify_concat, ← hplace]

/-- Reading the nets, bits are met in the order of the wires. -/
theorem importNets (hm : m.WellFormed) (ho : OffsetsFit m) (hc : Covers m nets) :
    ∃ d, (m.wireIds.map (wireEntry m nets)).foldlM (fun d field => importNet d field.1 field.2)
        { module := { name := m.name, attributes := rereadAll m.attributes } : Draft } = .ok d ∧
      Follows m nets m.places d ∧ d.module = netsRead m m.wireIds := by
  rw [List.foldlM_map]
  refine foldlM_steps (P := fun done d =>
    Follows m nets (done.flatMap m.wireSignal) d ∧ d.module = netsRead m done) ?_ ?_
  · intro done id rest d hids hd
    exact importNet_wireEntry hm ho hc hids hd.1 hd.2
  · exact ⟨⟨rfl, fun r _ _ => rfl⟩, rfl⟩

end

end ClockNet.NetlistJson

import ClockNet.Buffering.Clocks
import ClockNet.Proofs.Tags
import Mathlib.Data.Finset.Card

/-! # The clock nets of a module

What the cells of a module show is collected pin by pin, and each pin counts for itself
(`mem_sinks_survey` and its siblings). Then the inverters hand on what they have to: there are
enough sweeps to reach a state that no inverter changes (`closed_settle`). Where no net is the
output of two inverters, that state does not depend on the order of the sweeps: it is the least
one that the rules of `Demanded` and `Supplied` give. -/

namespace ClockNet.Buffering

/-! ## Pins -/

/-- A connected bit of a port of a cell. -/
structure Pin where
  cell : Cell
  port : String
  index : Nat
  bit : Bit

namespace Pin

def portBit (π : Pin) : PortBit := ⟨π.cell.type, π.port, π.index⟩

def ofModule (m : Module) : List Pin :=
  m.cells.flatMap fun c => c.ports.entries.flatMap fun e => e.2.zipIdx.map fun b =>
    ⟨c, e.1, b.2, b.1⟩

theorem mem_ofModule {m : Module} {π : Pin} : π ∈ ofModule m ↔
    π.cell ∈ m.cells ∧ Survey.portBit? π.cell π.port π.index = some π.bit := by
  unfold ofModule Survey.portBit?
  simp only [List.mem_flatMap, List.mem_map, Option.bind_eq_some_iff]
  constructor
  · intro h
    obtain ⟨c, hc, ⟨port, signal⟩, he, ⟨b, i⟩, hb, rfl⟩ := h
    exact ⟨hc, signal, OrderedTable.get?_of_mem he, (List.mk_mem_zipIdx_iff_getElem?).mp hb⟩
  · intro h
    obtain ⟨hc, signal, he, hb⟩ := h
    exact ⟨π.cell, hc, (π.port, signal), OrderedTable.mem_of_get? he, (π.bit, π.index),
      List.mk_mem_zipIdx_iff_getElem?.mpr hb, rfl⟩

/-- The inverter whose output a pin is. -/
def inverter? (tags : Tags) (aliases : AliasMap) (π : Pin) : Option Inverter :=
  ((tags.inverterInput? π.portBit).bind fun input =>
    Survey.portBit? π.cell input π.index).map fun b => ⟨aliases.root π.bit, aliases.root b⟩

def inverters (tags : Tags) (aliases : AliasMap) (m : Module) : List Inverter :=
  (ofModule m).filterMap (inverter? tags aliases)

end Pin

/-! ## Drivers -/

/-- The bits at which nets are driven: the outputs of cells, and the input ports. -/
def driverBits (signatures : Signatures) (m : Module) : List Bit :=
  ((Pin.ofModule m).filter fun π => signatures.isOutput π.cell π.port).map (·.bit) ++
    (m.wireIds.filter fun id => (m.wire id).isInput).flatMap m.wireSignal

/-- No net of the module is driven in two places. -/
def SingleDriver (signatures : Signatures) (m : Module) : Prop :=
  ((driverBits signatures m).map (AliasMap.ofConnections m.connections).root).Nodup

instance (signatures : Signatures) (m : Module) : Decidable (SingleDriver signatures m) :=
  inferInstanceAs (Decidable (List.Nodup _))

section
variable {signatures : Signatures} {m : Module} {π ρ : Pin}

/-- A net is driven by one output of a cell only. -/
theorem SingleDriver.pin_eq (h : SingleDriver signatures m) (hπ : π ∈ Pin.ofModule m)
    (hρ : ρ ∈ Pin.ofModule m) (hoπ : signatures.isOutput π.cell π.port = true)
    (hoρ : signatures.isOutput ρ.cell ρ.port = true)
    (he : (AliasMap.ofConnections m.connections).root π.bit =
      (AliasMap.ofConnections m.connections).root ρ.bit) : π = ρ := by
  unfold SingleDriver driverBits at h
  rw [List.map_append, List.map_map] at h
  have hpins := (List.nodup_append.mp h).1
  exact List.inj_on_of_nodup_map hpins (List.mem_filter.mpr ⟨hπ, hoπ⟩)
    (List.mem_filter.mpr ⟨hρ, hoρ⟩) he

theorem SingleDriver.pin_ne_input (h : SingleDriver signatures m) (hπ : π ∈ Pin.ofModule m)
    (hoπ : signatures.isOutput π.cell π.port = true) {id : WireId}
    (hin : (m.wire id).isInput = true) {i : Nat} (hi : i < (m.wire id).width) :
    (AliasMap.ofConnections m.connections).root π.bit ≠
      (AliasMap.ofConnections m.connections).root (.wire id i) := by
  unfold SingleDriver driverBits at h
  rw [List.map_append] at h
  refine (List.nodup_append.mp h).2.2 _ (List.mem_map_of_mem ?_) _ (List.mem_map_of_mem ?_)
  · exact List.mem_map_of_mem (List.mem_filter.mpr ⟨hπ, hoπ⟩)
  · refine List.mem_flatMap.mpr ⟨id, List.mem_filter.mpr ⟨?_, hin⟩, ?_⟩
    · exact List.mem_range.mpr (Module.lt_of_place hi)
    · exact List.mem_map_of_mem (List.mem_range.mpr hi)

end

/-! ## What the pins show -/

namespace Survey
variable {tags : Tags} {aliases : AliasMap} {m : Module}

def addPin (tags : Tags) (aliases : AliasMap) (s : Survey) (π : Pin) : Survey :=
  addBit tags aliases π.cell π.port s (π.bit, π.index)

theorem ofModule_eq (tags : Tags) (aliases : AliasMap) (m : Module) :
    ofModule tags aliases m = (Pin.ofModule m).foldl (addPin tags aliases) {} := by
  unfold ofModule Pin.ofModule
  rw [List.foldl_flatMap]
  congr 1
  funext s c
  unfold addCell
  rw [List.foldl_flatMap]
  congr 1
  funext s e
  rw [List.foldl_map]
  rfl

theorem addPin_spec (tags : Tags) (aliases : AliasMap) (s : Survey) (π : Pin) :
    (∀ net, net ∈ (addPin tags aliases s π).clocks.sinks ↔ net ∈ s.clocks.sinks ∨
      (π.portBit ∈ tags.sinks ∧ net = aliases.root π.bit)) ∧
    (∀ net, net ∈ (addPin tags aliases s π).clocks.buffered ↔ net ∈ s.clocks.buffered ∨
      (π.portBit ∈ tags.buffered ∧ net = aliases.root π.bit)) ∧
    (addPin tags aliases s π).inverters =
      (π.inverter? tags aliases).toList ++ s.inverters ∧
    (∀ type, type ∈ (addPin tags aliases s π).clocked ↔ type ∈ s.clocked ∨
      ((π.portBit ∈ tags.sinks ∨ (π.inverter? tags aliases).isSome) ∧ type = π.cell.type)) := by
  have hadd : addPin tags aliases s π =
      let s := if π.portBit ∈ tags.sinks then s.addSink π.cell (aliases.root π.bit) else s
      let s := if π.portBit ∈ tags.buffered then s.addBuffered (aliases.root π.bit) else s
      match π.inverter? tags aliases with
      | some i => s.addInverter π.cell i
      | none => s := by
    unfold addPin addBit Pin.inverter? Pin.portBit
    dsimp only
    cases (tags.inverterInput? ⟨π.cell.type, π.port, π.index⟩).bind fun input =>
        portBit? π.cell input π.index with
    | none => rfl
    | some b => rfl
  rw [hadd]
  dsimp only
  by_cases hs : π.portBit ∈ tags.sinks
  · by_cases hb : π.portBit ∈ tags.buffered
    · cases π.inverter? tags aliases with
      | none => simp [hs, hb, addSink, addBuffered, or_comm]
      | some i => simp [hs, hb, addSink, addBuffered, addInverter, or_comm]
    · cases π.inverter? tags aliases with
      | none => simp [hs, hb, addSink, or_comm]
      | some i => simp [hs, hb, addSink, addInverter, or_comm]
  · by_cases hb : π.portBit ∈ tags.buffered
    · cases π.inverter? tags aliases with
      | none => simp [hs, hb, addBuffered, or_comm]
      | some i => simp [hs, hb, addBuffered, addInverter, or_comm]
    · cases π.inverter? tags aliases with
      | none => simp [hs, hb]
      | some i => simp [hs, hb, addInverter, or_comm]

theorem mem_sinks_survey {net : Bit} : net ∈ (ofModule tags aliases m).clocks.sinks ↔
    ∃ π ∈ Pin.ofModule m, π.portBit ∈ tags.sinks ∧ net = aliases.root π.bit := by
  rw [ofModule_eq, mem_foldl_iff (S := fun s : Survey => s.clocks.sinks) fun s π =>
    (addPin_spec tags aliases s π).1]
  simp

theorem mem_buffered_survey {net : Bit} : net ∈ (ofModule tags aliases m).clocks.buffered ↔
    ∃ π ∈ Pin.ofModule m, π.portBit ∈ tags.buffered ∧ net = aliases.root π.bit := by
  rw [ofModule_eq, mem_foldl_iff (S := fun s : Survey => s.clocks.buffered) fun s π =>
    (addPin_spec tags aliases s π).2.1]
  simp

theorem mem_clocked_survey {type : String} : type ∈ (ofModule tags aliases m).clocked ↔
    ∃ π ∈ Pin.ofModule m, (π.portBit ∈ tags.sinks ∨ (π.inverter? tags aliases).isSome) ∧
      type = π.cell.type := by
  rw [ofModule_eq, mem_foldl_iff (S := Survey.clocked) fun s π =>
    (addPin_spec tags aliases s π).2.2.2]
  simp

theorem inverters_survey (tags : Tags) (aliases : AliasMap) (m : Module) :
    (ofModule tags aliases m).inverters.reverse = Pin.inverters tags aliases m := by
  have go : ∀ (pins : List Pin) (s : Survey),
      (pins.foldl (addPin tags aliases) s).inverters.reverse =
        s.inverters.reverse ++ pins.filterMap (Pin.inverter? tags aliases) := by
    intro pins
    induction pins with
    | nil => simp
    | cons π rest ih =>
      intro s
      rw [List.foldl_cons, ih, (addPin_spec tags aliases s π).2.2.1]
      cases h : π.inverter? tags aliases <;> simp [h]
  rw [ofModule_eq, go]
  rfl

theorem settled_survey (tags : Tags) (aliases : AliasMap) (m : Module) :
    (ofModule tags aliases m).settled =
      (ofModule tags aliases m).clocks.settle (Pin.inverters tags aliases m) := by
  unfold settled
  rw [inverters_survey]

end Survey

/-! ## Handing on along inverters -/

/-- The net needs a clock and has none. -/
def Clocks.Wanting (c : Clocks) (net : Bit) : Prop := net ∈ c.sinks ∧ net ∉ c.buffered

namespace Clocks
variable {is : List Inverter} {c : Clocks} {i : Inverter} {net : Bit}

theorem passInverter_cases (c : Clocks) (i : Inverter) :
    (i.input ∈ c.buffered ∧
      c.passInverter i = { c with buffered := c.buffered.insert i.output }) ∨
    (i.input ∉ c.buffered ∧ i.output ∈ c.sinks ∧ i.output ∉ c.buffered ∧ c.passInverter i =
      { sinks := c.sinks.insert i.input, buffered := c.buffered.insert i.output }) ∨
    (i.input ∉ c.buffered ∧ (i.output ∈ c.sinks → i.output ∈ c.buffered) ∧
      c.passInverter i = c) := by
  unfold passInverter
  by_cases hi : i.input ∈ c.buffered
  · simp [hi]
  · by_cases ho : i.output ∈ c.sinks
    · by_cases hb : i.output ∈ c.buffered
      · simp [hi, ho, hb]
      · simp [hi, ho, hb]
    · simp [hi, ho]

/-- What each inverter keeps is kept by all sweeps. -/
theorem settle_induction {P : Clocks → Prop} (h : ∀ c, ∀ i ∈ is, P c → P (c.passInverter i))
    (hc : P c) : P (c.settle is) := by
  have hsweep : ∀ c, P c → P (sweep is c) := by
    intro c hc
    unfold sweep
    exact List.foldlRecOn is passInverter hc fun c hc i hi => h c i hi hc
  unfold settle
  generalize is.length = n
  induction n with
  | zero => exact hc
  | succ n ih => exact hsweep _ ih

theorem buffered_subset_passInverter (c : Clocks) (i : Inverter) :
    c.buffered ⊆ (c.passInverter i).buffered := by
  intro b hb
  rcases passInverter_cases c i with ⟨-, he⟩ | ⟨-, -, -, he⟩ | ⟨-, -, he⟩
  · rw [he]; exact List.mem_insert_of_mem hb
  · rw [he]; exact List.mem_insert_of_mem hb
  · rw [he]; exact hb

theorem sinks_subset_settle (is : List Inverter) (c : Clocks) :
    c.sinks ⊆ (c.settle is).sinks := by
  refine settle_induction (P := fun c' => c.sinks ⊆ c'.sinks) ?_ (List.Subset.refl _)
  intro c' i _ hc b hb
  rcases passInverter_cases c' i with ⟨-, he⟩ | ⟨-, -, -, he⟩ | ⟨-, -, he⟩
  · rw [he]; exact hc hb
  · rw [he]; exact List.mem_insert_of_mem (hc hb)
  · rw [he]; exact hc hb

theorem buffered_subset_settle (is : List Inverter) (c : Clocks) :
    c.buffered ⊆ (c.settle is).buffered := by
  refine settle_induction (P := fun c' => c.buffered ⊆ c'.buffered) ?_ (List.Subset.refl _)
  intro c' i _ hc
  exact List.Subset.trans hc (buffered_subset_passInverter c' i)

/-! ## There are enough sweeps -/

def markedOutputs (is : List Inverter) (c : Clocks) : Finset Bit :=
  (is.map (·.output)).toFinset.filter (· ∈ c.buffered)

theorem markedOutputs_mono {c c' : Clocks} (h : c.buffered ⊆ c'.buffered) :
    markedOutputs is c ⊆ markedOutputs is c' := by
  refine Finset.monotone_filter_right _ ?_
  intro b _ hb
  exact h hb

/-- An inverter that changes something marks its output. -/
theorem passInverter_marks (hi : i ∈ is) :
    c.passInverter i = c ∨ markedOutputs is c ⊂ markedOutputs is (c.passInverter i) := by
  by_cases ho : i.output ∈ c.buffered
  · left
    rcases passInverter_cases c i with ⟨-, he⟩ | ⟨-, -, hn, -⟩ | ⟨-, -, he⟩
    · rw [he, List.insert_of_mem ho]
    · exact absurd ho hn
    · exact he
  · rcases passInverter_cases c i with ⟨-, he⟩ | ⟨-, -, -, he⟩ | ⟨-, -, he⟩
    · right
      refine (Finset.ssubset_iff_of_subset (markedOutputs_mono ?_)).mpr ⟨i.output, ?_, ?_⟩
      · exact buffered_subset_passInverter c i
      · simp only [markedOutputs, Finset.mem_filter, List.mem_toFinset, List.mem_map, he]
        exact ⟨⟨i, hi, rfl⟩, List.mem_insert_self⟩
      · simp [markedOutputs, ho]
    · right
      refine (Finset.ssubset_iff_of_subset (markedOutputs_mono ?_)).mpr ⟨i.output, ?_, ?_⟩
      · exact buffered_subset_passInverter c i
      · simp only [markedOutputs, Finset.mem_filter, List.mem_toFinset, List.mem_map, he]
        exact ⟨⟨i, hi, rfl⟩, List.mem_insert_self⟩
      · simp [markedOutputs, ho]
    · exact .inl he

theorem foldl_passInverter_marks {l : List Inverter} (hl : l ⊆ is) :
    (∀ i ∈ l, c.passInverter i = c) ∧ l.foldl passInverter c = c ∨
      markedOutputs is c ⊂ markedOutputs is (l.foldl passInverter c) := by
  induction l generalizing c with
  | nil => simp
  | cons i rest ih =>
    have hrest : rest ⊆ is := fun j hj => hl (List.mem_cons_of_mem _ hj)
    rw [List.foldl_cons]
    rcases passInverter_marks (c := c) (hl List.mem_cons_self) with he | hlt
    · rw [he]
      rcases ih hrest (c := c) with ⟨hall, hfix⟩ | hlt
      · left
        refine ⟨?_, hfix⟩
        intro j hj
        rcases List.mem_cons.mp hj with rfl | hj
        · exact he
        · exact hall j hj
      · exact .inr hlt
    · rcases ih hrest (c := c.passInverter i) with ⟨-, hfix⟩ | hlt'
      · rw [hfix]; exact .inr hlt
      · exact .inr (hlt.trans hlt')

theorem sweep_of_stable (h : ∀ i ∈ is, c.passInverter i = c) : sweep is c = c := by
  unfold sweep
  induction is with
  | nil => rfl
  | cons i rest ih =>
    rw [List.foldl_cons, h i List.mem_cons_self]
    exact ih fun j hj => h j (List.mem_cons_of_mem _ hj)

/-- After some sweeps either nothing changes any more or as many outputs are marked. -/
theorem stable_or_marked (is : List Inverter) (c : Clocks) (n : Nat) :
    (∀ i ∈ is, (n.repeat (sweep is) c).passInverter i = n.repeat (sweep is) c) ∨
      n < (markedOutputs is ((n + 1).repeat (sweep is) c)).card := by
  induction n with
  | zero =>
    rcases foldl_passInverter_marks (c := c) (List.Subset.refl is) with ⟨hall, -⟩ | hlt
    · exact .inl hall
    · exact .inr (Nat.lt_of_le_of_lt (Nat.zero_le _) (Finset.card_lt_card hlt))
  | succ n ih =>
    rcases ih with hall | hmany
    · left
      have hsucc : (n + 1).repeat (sweep is) c = n.repeat (sweep is) c := sweep_of_stable hall
      rw [hsucc]
      exact hall
    · rcases foldl_passInverter_marks (c := (n + 1).repeat (sweep is) c)
        (List.Subset.refl is) with ⟨hall, -⟩ | hlt
      · exact .inl hall
      · right
        have hcard := Finset.card_lt_card hlt
        have hnext : (n + 1 + 1).repeat (sweep is) c =
            is.foldl passInverter ((n + 1).repeat (sweep is) c) := rfl
        rw [hnext]
        omega

theorem passInverter_settle (c : Clocks) (hi : i ∈ is) :
    (c.settle is).passInverter i = c.settle is := by
  rcases stable_or_marked is c is.length with hall | hmany
  · exact hall i hi
  · have hle : (markedOutputs is ((is.length + 1).repeat (sweep is) c)).card ≤ is.length := by
      refine (Finset.card_filter_le _ _).trans ((List.toFinset_card_le _).trans ?_)
      rw [List.length_map]
    omega

/-- In the end the output of an inverter is buffered if its input is, or if it needs a clock. -/
theorem closed_settle (c : Clocks) (hi : i ∈ is)
    (h : i.input ∈ (c.settle is).buffered ∨ i.output ∈ (c.settle is).sinks) :
    i.output ∈ (c.settle is).buffered := by
  have hfix := passInverter_settle c hi
  rcases passInverter_cases (c.settle is) i with ⟨-, he⟩ | ⟨-, -, -, he⟩ | ⟨hn, hs, -⟩
  · rw [← hfix, he]; exact List.mem_insert_self
  · rw [← hfix, he]; exact List.mem_insert_self
  · exact hs (h.resolve_left hn)

/-! ## The least closed state -/

/-- Nets that need a clock, by themselves or for an inverter whose output has none. -/
inductive Demanded (is : List Inverter) (c : Clocks) : Bit → Prop where
  | sink {net : Bit} (h : net ∈ c.sinks) : Demanded is c net
  | inverter {i : Inverter} (hi : i ∈ is) (h : Demanded is c i.output)
      (hb : i.output ∉ c.buffered) : Demanded is c i.input

/-- Nets that count as buffered, by themselves or as outputs of inverters. -/
inductive Supplied (is : List Inverter) (c : Clocks) : Bit → Prop where
  | buffered {net : Bit} (h : net ∈ c.buffered) : Supplied is c net
  | inverter {i : Inverter} (hi : i ∈ is) (h : Supplied is c i.input) : Supplied is c i.output
  | demand {i : Inverter} (hi : i ∈ is) (h : Demanded is c i.output) : Supplied is c i.output

/-- The sweeps mark no more than the rules give. -/
theorem settle_sound (is : List Inverter) (c : Clocks) :
    (∀ net ∈ (c.settle is).sinks, Demanded is c net) ∧
      ∀ net ∈ (c.settle is).buffered, Supplied is c net := by
  -- what is buffered at the start stays so, and an output without a buffer has none at the start
  have h : c.buffered ⊆ (c.settle is).buffered ∧
      (∀ net ∈ (c.settle is).sinks, Demanded is c net) ∧
      ∀ net ∈ (c.settle is).buffered, Supplied is c net := by
    refine settle_induction (P := fun c' => c.buffered ⊆ c'.buffered ∧
      (∀ net ∈ c'.sinks, Demanded is c net) ∧ ∀ net ∈ c'.buffered, Supplied is c net) ?_ ?_
    · intro c' i hi hc
      obtain ⟨hsub, hs, hb⟩ := hc
      refine ⟨List.Subset.trans hsub (buffered_subset_passInverter c' i), ?_⟩
      rcases passInverter_cases c' i with ⟨hin, he⟩ | ⟨-, ho, hnew, he⟩ | ⟨-, -, he⟩
      · rw [he]
        refine ⟨hs, ?_⟩
        intro net hnet
        rcases List.mem_insert_iff.mp hnet with rfl | hnet
        · exact .inverter hi (hb _ hin)
        · exact hb net hnet
      · rw [he]
        refine ⟨?_, ?_⟩
        · intro net hnet
          rcases List.mem_insert_iff.mp hnet with rfl | hnet
          · exact .inverter hi (hs _ ho) fun hold => hnew (hsub hold)
          · exact hs net hnet
        · intro net hnet
          rcases List.mem_insert_iff.mp hnet with rfl | hnet
          · exact .demand hi (hs _ ho)
          · exact hb net hnet
      · rw [he]
        exact ⟨hs, hb⟩
    · exact ⟨List.Subset.refl _, fun net h => .sink h, fun net h => .buffered h⟩
  exact h.2

/-- A net that the sweeps mark as buffered was so, or is the output of an inverter whose input
is marked in one way or the other. -/
theorem buffered_settle_cases (h : net ∈ (c.settle is).buffered) : net ∈ c.buffered ∨
    ∃ i ∈ is, net = i.output ∧
      (i.input ∈ (c.settle is).sinks ∨ i.input ∈ (c.settle is).buffered) := by
  revert net
  refine settle_induction (P := fun c' => ∀ {net}, net ∈ c'.buffered → net ∈ c.buffered ∨
    ∃ i ∈ is, net = i.output ∧ (i.input ∈ c'.sinks ∨ i.input ∈ c'.buffered)) ?_ ?_
  · intro c' i hi hc net hnet
    rcases passInverter_cases c' i with ⟨hin, he⟩ | ⟨-, -, -, he⟩ | ⟨-, -, he⟩
    · rw [he] at hnet ⊢
      rcases List.mem_insert_iff.mp hnet with rfl | hnet
      · exact .inr ⟨i, hi, rfl, .inr (List.mem_insert_of_mem hin)⟩
      · refine (hc hnet).imp_right ?_
        intro hex
        obtain ⟨j, hj, hout, hin'⟩ := hex
        exact ⟨j, hj, hout, hin'.imp_right List.mem_insert_of_mem⟩
    · rw [he] at hnet ⊢
      rcases List.mem_insert_iff.mp hnet with rfl | hnet
      · exact .inr ⟨i, hi, rfl, .inl List.mem_insert_self⟩
      · refine (hc hnet).imp_right ?_
        intro hex
        obtain ⟨j, hj, hout, hin'⟩ := hex
        exact ⟨j, hj, hout, hin'.imp List.mem_insert_of_mem List.mem_insert_of_mem⟩
    · rw [he] at hnet ⊢
      exact hc hnet
  · intro net hnet
    exact .inl hnet

section Unique
variable (hu : ∀ i ∈ is, ∀ j ∈ is, i.output = j.output → i.input = j.input)
include hu

theorem marked_of_demanded (h : Demanded is c net) :
    net ∈ (c.settle is).sinks ∨ net ∈ (c.settle is).buffered := by
  induction h with
  | sink h => exact .inl (sinks_subset_settle is c h)
  | @inverter i hi _ hb ih =>
    -- the output is buffered in either case, and only this inverter can have marked it
    have hout : i.output ∈ (c.settle is).buffered := by
      rcases ih with ih | ih
      · exact closed_settle c hi (.inr ih)
      · exact ih
    rcases buffered_settle_cases hout with hold | ⟨j, hj, he, hin⟩
    · exact absurd hold hb
    · rw [hu i hi j hj he]
      exact hin

theorem mem_buffered_settle : net ∈ (c.settle is).buffered ↔ Supplied is c net := by
  refine ⟨(settle_sound is c).2 net, ?_⟩
  intro h
  induction h with
  | buffered h => exact buffered_subset_settle is c h
  | inverter hi _ ih => exact closed_settle c hi (.inl ih)
  | demand hi h =>
    rcases marked_of_demanded hu h with hs | hb
    · exact closed_settle c hi (.inr hs)
    · exact hb

theorem wanting_settle :
    (c.settle is).Wanting net ↔ Demanded is c net ∧ ¬ Supplied is c net := by
  unfold Wanting
  rw [mem_buffered_settle hu]
  refine ⟨?_, ?_⟩
  · intro h
    exact ⟨(settle_sound is c).1 net h.1, h.2⟩
  · intro h
    refine ⟨?_, h.2⟩
    rcases marked_of_demanded hu h.1 with hs | hb
    · exact hs
    · exact absurd ((settle_sound is c).2 net hb) h.2

end Unique

end Clocks

end ClockNet.Buffering

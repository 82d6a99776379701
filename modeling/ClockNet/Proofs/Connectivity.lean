import ClockNet.Proofs.Run
import Mathlib

/-! # A run keeps what is connected

A run puts cells between nets and their drivers, moves drivers, exchanges ports for copies and
gives loads back. If each inserted cell counts as a connection between its output and its input,
nothing that was connected is cut and nothing else is joined (`connectivity_preserved`). Step by
step, an inserted cell hangs a new wire onto a bit that was there, and so does each connection of
a copy; such a bit can be folded back onto the one that it hangs on (`Joined.retract`). -/

namespace ClockNet

/-- The bits of a cell's ports whose recorded direction is the given one. -/
def Cell.bitsWith (c : Cell) (d : Direction) : List Bit :=
  (c.ports.entries.filter fun e => c.directions.get? e.1 == some d).flatMap (·.2)

/-- The pairs of an output bit and an input bit of a cell. -/
def Cell.bridges (c : Cell) : List (Bit × Bit) :=
  (c.bitsWith .output).flatMap fun x => (c.bitsWith .input).map fun y => (x, y)

namespace Buffering

/-- The cell types that a run can insert, with their ports. -/
def Options.placeable (o : Options) : List BufferSpec :=
  o.buffer.toList ++
    (o.buffer.bind fun b => o.generatedClock.map fun g => { b with type := g.bufferType }).toList ++
    o.pad.toList

/-- The ports of an insertable cell have two names, and where its type is a module of the
design, that module declares the one as an output and the other as an input. -/
structure BufferSpec.Sound (d : Design) (spec : BufferSpec) : Prop where
  distinct : spec.output ≠ spec.input
  output : ∀ m ∈ d.find? spec.type, Insertion.Declares m spec.output .output
  input : ∀ m ∈ d.find? spec.type, Insertion.Declares m spec.input .input

instance (d : Design) (spec : BufferSpec) : Decidable (spec.Sound d) :=
  decidable_of_iff (spec.output ≠ spec.input ∧
      (∀ m ∈ d.find? spec.type, Insertion.Declares m spec.output .output) ∧
      ∀ m ∈ d.find? spec.type, Insertion.Declares m spec.input .input)
    ⟨fun ⟨h₁, h₂, h₃⟩ => ⟨h₁, h₂, h₃⟩, fun h => ⟨h.1, h.2, h.3⟩⟩

/-- The output of every insertable cell counts as one. -/
def DrivesOutputs (e : Scene) : Prop := ∀ spec ∈ e.options.placeable,
  spec.output ≠ spec.input ∧ ∀ name output feed,
    e.signatures.isOutput (bufferCell name spec.type spec output feed) spec.output = true

theorem mem_placeable_of_mem_parts {e : Scene} {m : Module} {w : Wire} {bit : Bit}
    {spec : BufferSpec} (h : spec ∈ parts e m w bit) : spec ∈ e.options.placeable := by
  unfold parts at h
  unfold Options.placeable
  rcases List.mem_append.mp h with h | h
  · obtain ⟨b, hb, rfl⟩ := Option.map_eq_some_iff.mp (Option.mem_toList.mp h)
    have hbuffer : e.options.buffer = some b := by
      unfold Insertion.bufferFor? at hb
      split at hb
      · cases hb
      · exact hb
    rw [hbuffer]
    unfold bufferAt bufferType
    cases hg : e.options.generatedClock with
    | none => simp
    | some g =>
      by_cases hbit : bit ∈ e.generated
      · simp [hbit]
      · simp [hbit]
  · have hp := Option.mem_toList.mp h
    unfold Insertion.padFor? at hp
    refine List.mem_append_right _ (Option.mem_toList.mpr ?_)
    split at hp
    · exact hp
    · cases hp

/-! ## The pairs of connected bits -/

/-- The pairs that the connections of a module join, and those that its cells from `n` on
join, each its output with its input. -/
def links (n : Nat) (m : Module) : List (Bit × Bit) :=
  AliasMap.pairsOf m.connections ++ (m.cells.drop n).flatMap Cell.bridges

theorem bufferCell_bridges {name type : String} {spec : BufferSpec} {output : Bit} {feed : WireId}
    (h : spec.output ≠ spec.input) :
    (bufferCell name type spec output feed).bridges = [(output, .wire feed 0)] := by
  unfold Cell.bridges Cell.bitsWith
  rw [bufferCell_ports h]
  simp [bufferCell_direction, h]

theorem mem_links {n : Nat} {m : Module} {p : Bit × Bit} : p ∈ links n m ↔
    p ∈ AliasMap.pairsOf m.connections ∨
      ∃ k, n ≤ k ∧ k < m.cells.length ∧ p ∈ (m.cell k).bridges := by
  unfold links
  rw [List.mem_append, List.mem_flatMap]
  refine or_congr_right ⟨?_, ?_⟩
  · intro h
    obtain ⟨c, hc, hp⟩ := h
    obtain ⟨i, hi, rfl⟩ := List.getElem_of_mem hc
    have hi' := hi
    rw [List.length_drop] at hi'
    have hlt : n + i < m.cells.length := by omega
    refine ⟨n + i, Nat.le_add_right n i, hlt, ?_⟩
    rw [Module.cell_eq_getElem hlt]
    rwa [List.getElem_drop] at hp
  · intro h
    obtain ⟨k, hn, hk, hp⟩ := h
    refine ⟨m.cell k, ?_, hp⟩
    rw [Module.cell_eq_getElem hk, List.mem_iff_getElem]
    exact ⟨k - n, by rw [List.length_drop]; omega, by
      rw [List.getElem_drop]
      congr 1
      omega⟩

/-! ## While cells are inserted -/

/-- The bits of a new wire, up to a width, in the place of other bits. -/
def inPlaceOf (id : WireId) (width : Nat) (target : Nat → Bit) : Bit → Bit
  | .const t => .const t
  | .wire j i => if j = id ∧ i < width then target i else .wire j i

theorem inPlaceOf_new {id : WireId} {width i : Nat} (target : Nat → Bit) (hi : i < width) :
    inPlaceOf id width target (.wire id i) = target i := if_pos ⟨rfl, hi⟩

theorem inPlaceOf_owns {m : Module} {b : Bit} (width : Nat) (target : Nat → Bit) (hb : m.Owns b) :
    inPlaceOf m.wires.length width target b = b := by
  cases b with
  | const => rfl
  | wire id i =>
    refine if_neg ?_
    intro hid
    rw [hid.1] at hb
    exact m.not_owns_new i hb

/-- What the module joins is what it joined at the start, as far as its own bits go; no pair
reaches beyond the bits that there are. -/
structure Kept (m m' : Module) : Prop where
  owns : ∀ p ∈ links m.cells.length m', m'.Owns p.1 ∧ m'.Owns p.2
  joined : ∀ a b, m.Owns a → m.Owns b →
    (Joined (links m.cells.length m') a b ↔ Joined (AliasMap.pairsOf m.connections) a b)

section Kept
variable {m m' : Module}

theorem kept_refl (h : m.WellFormed) : Kept m m := by
  have hl : links m.cells.length m = AliasMap.pairsOf m.connections := by
    unfold links
    rw [List.drop_length]
    exact List.append_nil _
  refine ⟨?_, fun a b _ _ => ?_⟩
  · rw [hl]; exact h.owns_pairs
  · rw [hl]

theorem Kept.fixes (h : Kept m m') {f : Bit → Bit} (hf : ∀ b, m'.Owns b → f b = b) :
    ∀ p ∈ links m.cells.length m', f p.1 = p.1 ∧ f p.2 = p.2 := fun p hp =>
  ⟨hf _ (h.owns p hp).1, hf _ (h.owns p hp).2⟩

theorem Kept.addBuffer (h : Kept m m') (hg : m.Grown m') {spec : BufferSpec} {output : Bit}
    (hne : spec.output ≠ spec.input) (ho : m'.Owns output) :
    Kept m (addBuffer m' spec.type spec output).2 := by
  obtain ⟨name, wireName, n, -, -, he⟩ := addBuffer_module m' spec.type spec output
  have hgrown := grown_addBuffer m' spec.type spec output
  have hlinks : links m.cells.length (Buffering.addBuffer m' spec.type spec output).2 =
      links m.cells.length m' ++ [(output, .wire m'.wires.length 0)] := by
    rw [he]
    unfold links
    dsimp only
    rw [List.drop_append_of_le_length hg.cells_length, List.flatMap_append,
      List.flatMap_singleton, bufferCell_bridges hne, List.append_assoc]
  have hf : ∀ b, m'.Owns b → inPlaceOf m'.wires.length 1 (fun _ => output) b = b := by
    intro b hb
    exact inPlaceOf_owns 1 _ hb
  refine ⟨fun p hp => ?_, fun a b ha hb => ?_⟩
  · rw [hlinks] at hp
    rcases List.mem_append.mp hp with hp | hp
    · exact ⟨hgrown.owns (h.owns p hp).1, hgrown.owns (h.owns p hp).2⟩
    · rw [List.mem_singleton.mp hp]
      refine ⟨hgrown.owns ho, ?_⟩
      unfold Module.Owns
      rw [addBuffer_wires_length]
      exact Nat.lt_succ_self _
  · rw [hlinks, ← h.joined a b ha hb]
    refine Joined.retract (h.fixes hf) (fun p hp => ?_) (hf a (hg.owns ha)) (hf b (hg.owns hb))
    rw [List.mem_singleton.mp hp]
    dsimp only
    rw [hf output ho, inPlaceOf_new _ Nat.zero_lt_one]

theorem Kept.addParts (h : Kept m m') (hg : m.Grown m') {specs : List BufferSpec} {output : Bit}
    (hne : ∀ spec ∈ specs, spec.output ≠ spec.input) (ho : m'.Owns output) :
    Kept m (addParts m' output specs) := by
  induction specs generalizing m' output with
  | nil => exact h
  | cons spec rest ih =>
    refine ih (h.addBuffer hg (hne spec List.mem_cons_self) ho)
      (hg.trans (grown_addBuffer _ _ _ _)) (fun x hx => hne x (List.mem_cons_of_mem _ hx)) ?_
    unfold Module.Owns
    rw [addBuffer_wires_length]
    exact Nat.lt_succ_self _

theorem Kept.copy (h : Kept m m') (hg : m.Grown m') {m'' : Module} {w : Wire} {width : Nat}
    {target : Nat → Bit} (ht : ∀ i < width, m'.Owns (target i)) (hw : m''.wires = m'.wires ++ [w])
    (hc : m''.cells = m'.cells)
    (hconn : m''.connections = m'.connections ++ (List.range width).map fun i =>
      ([target i], [.wire m'.wires.length i])) : Kept m m'' := by
  have hpairs : AliasMap.pairsOf m''.connections = AliasMap.pairsOf m'.connections ++
      (List.range width).map fun i => (target i, .wire m'.wires.length i) := by
    rw [hconn, AliasMap.pairsOf_append]
    congr 1
    unfold AliasMap.pairsOf
    rw [List.flatMap_map]
    exact List.map_eq_flatMap.symm
  have hlinks : ∀ p, p ∈ links m.cells.length m'' ↔ p ∈ links m.cells.length m' ++
      (List.range width).map fun i => (target i, .wire m'.wires.length i) := by
    intro p
    unfold links
    rw [hpairs, hc]
    simp only [List.mem_append]
    tauto
  have howns : ∀ b, m'.Owns b → m''.Owns b := by
    intro b hb
    cases b with
    | const => trivial
    | wire id i =>
      unfold Module.Owns
      rw [hw, List.length_append]
      exact Nat.lt_of_lt_of_le hb (Nat.le_add_right _ _)
  have hf : ∀ b, m'.Owns b → inPlaceOf m'.wires.length width target b = b := by
    intro b hb
    exact inPlaceOf_owns width target hb
  refine ⟨fun p hp => ?_, fun a b ha hb => ?_⟩
  · rcases List.mem_append.mp ((hlinks p).mp hp) with hp | hp
    · exact ⟨howns _ (h.owns p hp).1, howns _ (h.owns p hp).2⟩
    · obtain ⟨i, hi, rfl⟩ := List.mem_map.mp hp
      refine ⟨howns _ (ht i (List.mem_range.mp hi)), ?_⟩
      unfold Module.Owns
      rw [hw, List.length_append]
      exact Nat.lt_succ_self _
  · rw [Joined.congr_mem hlinks, ← h.joined a b ha hb]
    refine Joined.retract (h.fixes hf) (fun p hp => ?_) (hf a (hg.owns ha)) (hf b (hg.owns hb))
    obtain ⟨i, hi, rfl⟩ := List.mem_map.mp hp
    have hi := List.mem_range.mp hi
    dsimp only
    rw [hf _ (ht i hi), inPlaceOf_new target hi]

end Kept

section Walk
variable {e : Scene} {m : Module} {s : Insertion}

theorem Kept.apply (h : Kept m s.module) (hf : Fitted e m s) (hm : m.WellFormed)
    (ha : e.aliases = .ofConnections m.connections)
    (hne : ∀ spec ∈ e.options.placeable, spec.output ≠ spec.input) {a : Action}
    (hmem : a ∈ actions e m) : Kept m (a.apply e m s).module := by
  cases a with
  | drive id i =>
    have hid := Module.lt_of_place (mem_actions_drive.mp hmem).1.place
    unfold Action.apply
    dsimp only
    rw [(Insertion.drive_spec e s _ _ _ _).1]
    refine h.addParts hf.grown (fun spec hspec => hne spec (mem_placeable_of_mem_parts hspec)) ?_
    rw [ha]
    exact hf.grown.owns ((hm.owns_root _).mpr hid)
  | publishSink id i => exact h
  | publishBuffered id i => exact h
  | replace id =>
    obtain ⟨name, n, -, he⟩ := Insertion.replaceInput_module e s id (m.wire id)
    obtain ⟨-, i, hd⟩ := mem_actions_replace.mp hmem
    have hid := Module.lt_of_place (mem_actions_drive.mp hd).1.place
    unfold Action.apply
    dsimp only
    rw [he]
    refine h.copy hf.grown (fun i _ => ?_) rfl rfl rfl
    unfold Insertion.copiedBit
    split
    · rename_i p hp
      exact (hf.placed _ p (mem_of_placedOn? hp)).isFeed.lt
    · exact Nat.lt_of_lt_of_le hid hf.grown.wires_length

/-- After the walk over the wires the own bits of the module are joined as they were. -/
theorem kept_visitWires (hs : s.Fresh) (hm : s.module.WellFormed)
    (ha : e.aliases = .ofConnections s.module.connections)
    (hne : ∀ spec ∈ e.options.placeable, spec.output ≠ spec.input) :
    Kept s.module (s.visitWires e).module := by
  have go : ∀ (as : List Action) (t : Insertion), (∀ a ∈ as, a ∈ actions e s.module) →
      Fitted e s.module t → Kept s.module t.module →
      Kept s.module (as.foldl (Action.apply e s.module) t).module := by
    intro as
    induction as with
    | nil => intro t _ _ ht; exact ht
    | cons a rest ih =>
      intro t hmem hf ht
      have hhead := hmem a List.mem_cons_self
      exact ih _ (fun b hb => hmem b (List.mem_cons_of_mem _ hb)) (hf.apply hhead)
        (ht.apply hf hm ha hne hhead)
  rw [Insertion.visitWires_eq]
  exact go _ s (fun a ha => ha) (fitted_start hs) (kept_refl hm)

end Walk

/-! ## While things are handed over -/

section Handover
variable {e : Scene} {s : Insertion}

open Insertion

theorem root_of_not_owns (hm : s.module.WellFormed)
    (ha : e.aliases = .ofConnections s.module.connections) {b : Bit}
    (hb : ¬ s.module.Owns b) : e.aliases.root b = b := by
  rw [ha]
  refine AliasMap.root_of_unconnected fun p hp => ?_
  obtain ⟨h₁, h₂⟩ := hm.owns_pairs p hp
  exact ⟨fun he => hb (he ▸ h₁), fun he => hb (he ▸ h₂)⟩

theorem owns_placed (hs : s.Fresh) (hm : s.module.WellFormed)
    (ha : e.aliases = .ofConnections s.module.connections) {net : Bit} {p : Placement}
    (h : (net, p) ∈ (s.inserted e).placed) : s.module.Owns net := by
  obtain ⟨id, i, spec, f, hd, rfl, -⟩ := (fitted_inserted hs).placed net p h
  rw [ha]
  exact (hm.owns_root _).mpr (Module.lt_of_place (mem_actions_drive.mp hd).1.place)

theorem movedBit_of_not_owns (hs : s.Fresh) (hm : s.module.WellFormed)
    (ha : e.aliases = .ofConnections s.module.connections) {b : Bit}
    (hb : ¬ s.module.Owns b) (k : CellId) : movedBit e (s.inserted e) k b = b := by
  unfold movedBit
  rw [root_of_not_owns hm ha hb]
  split
  · rename_i p hp
    exact absurd (owns_placed hs hm ha (mem_of_placedOn? hp)) hb
  · rfl

theorem kept_inserted (hs : s.Fresh) (hm : s.module.WellFormed)
    (ha : e.aliases = .ofConnections s.module.connections)
    (hne : ∀ spec ∈ e.options.placeable, spec.output ≠ spec.input) :
    Kept s.module (s.inserted e).module := by
  obtain ⟨tags, ht⟩ := publishOutputs_rest e (s.visitWires e)
  unfold inserted
  rw [ht]
  exact kept_visitWires hs hm ha hne

theorem mem_links_cellAt {m : Module} {u : Insertion} {k : CellId} {spec : BufferSpec}
    {output : Bit} {feed : WireId} (h : CellAt m u k spec output feed)
    (hne : spec.output ≠ spec.input) :
    (output, Bit.wire feed 0) ∈ links m.cells.length u.module := by
  obtain ⟨name, hc⟩ := h.shape
  refine mem_links.mpr (.inr ⟨k, h.new, h.lt, ?_⟩)
  rw [hc, bufferCell_bridges hne]
  exact List.mem_singleton.mpr rfl

/-- The chain placed on a net links it to the wire that feeds the chain. -/
theorem joined_placement {m : Module} {u : Insertion} {net : Bit} {p : Placement}
    (h : PlacementFits e m u net p)
    (hne : ∀ spec ∈ e.options.placeable, spec.output ≠ spec.input) :
    Joined (links m.cells.length u.module) net (.wire p.feed 0) := by
  obtain ⟨id, i, spec, f, -, -, hspec, hc, ho⟩ := h
  have hmem := mem_placeable_of_mem_parts (List.mem_of_mem_head? hspec)
  have hfirst := Joined.of_mem (mem_links_cellAt hc (hne _ hmem))
  rcases ho with rfl | ⟨k, spec', hmem', hk⟩
  · exact hfirst
  · exact hfirst.trans
      (Joined.of_mem (mem_links_cellAt hk (hne _ (mem_placeable_of_mem_parts hmem'))))

theorem joined_root_links (hs : s.Fresh) (ha : e.aliases = .ofConnections s.module.connections)
    (b : Bit) :
    Joined (links s.module.cells.length (s.inserted e).module) b (e.aliases.root b) := by
  obtain ⟨target, hc, -⟩ := (fitted_inserted (e := e) hs).copies
  rw [ha]
  refine (AliasMap.joined_root s.module.connections b).mono fun p hp => ?_
  unfold links
  rw [hc, AliasMap.pairsOf_append]
  exact List.mem_append_left _ (List.mem_append_left _ hp)

theorem joined_movedBit (hs : s.Fresh) (ha : e.aliases = .ofConnections s.module.connections)
    (hne : ∀ spec ∈ e.options.placeable, spec.output ≠ spec.input) (k : CellId) (b : Bit) :
    Joined (links s.module.cells.length (s.inserted e).module) b
      (movedBit e (s.inserted e) k b) := by
  unfold movedBit
  split
  · rename_i p hp
    split
    · exact Joined.refl b
    · exact (joined_root_links hs ha b).trans
        (joined_placement ((fitted_inserted hs).placed _ p (mem_of_placedOn? hp)) hne)
  · exact Joined.refl b

theorem joined_copy (hs : s.Fresh) (ha : e.aliases = .ofConnections s.module.connections)
    (hne : ∀ spec ∈ e.options.placeable, spec.output ≠ spec.input) {q : WireId × WireId}
    (hq : q ∈ (s.inserted e).replaced) {i : Nat} (hi : i < (s.module.wire q.1).width) :
    Joined (links s.module.cells.length (s.inserted e).module) (.wire q.1 i) (.wire q.2 i) := by
  obtain ⟨target, hc, ht⟩ := (fitted_inserted (e := e) hs).copies
  have hpair : (target q.2 i, Bit.wire q.2 i) ∈
      links s.module.cells.length (s.inserted e).module := by
    refine mem_links.mpr (.inl ?_)
    rw [hc, AliasMap.pairsOf_append]
    refine List.mem_append_right _ (List.mem_flatMap.mpr ⟨([target q.2 i], [.wire q.2 i]), ?_, ?_⟩)
    · exact List.mem_flatMap.mpr ⟨q, hq, List.mem_map.mpr ⟨i, List.mem_range.mpr hi, rfl⟩⟩
    · exact List.mem_singleton.mpr rfl
  refine Joined.trans ?_ (Joined.of_mem hpair)
  rcases ht q hq i with he | ⟨p, hp, he⟩
  · rw [he]
    exact Joined.refl _
  · rw [he]
    exact (joined_root_links hs ha _).trans
      (joined_placement ((fitted_inserted hs).placed _ p hp) hne)

/-- The signal of a port changes bit by bit, each to a bit that is joined to it. -/
theorem joined_handedSignal (hs : s.Fresh) (ha : e.aliases = .ofConnections s.module.connections)
    (hne : ∀ spec ∈ e.options.placeable, spec.output ≠ spec.input) (k : CellId) (c : Cell)
    (port : String) (signal : Signal) :
    List.Forall₂ (Joined (links s.module.cells.length (s.inserted e).module)) signal
      (handedSignal e (s.inserted e) (s.inserted e).renamed k c port signal) := by
  unfold handedSignal
  split
  · rw [List.forall₂_map_right_iff]
    exact List.forall₂_same.mpr fun b _ => joined_movedBit hs ha hne k b
  · split
    · refine (forall₂_restoredSignal (widths_renamed hs) signal).imp fun b b' hb => ?_
      rcases hb with rfl | ⟨q, hq, i, hi, rfl, rfl⟩
      · exact Joined.refl _
      · rw [(width_renamed hs hq).1] at hi
        exact joined_copy hs ha hne hq hi
    · exact List.forall₂_same.mpr fun b _ => Joined.refl b

theorem handedSignal_new (hs : s.Fresh) (hm : s.module.WellFormed)
    (ha : e.aliases = .ofConnections s.module.connections) {b : Bit} (hb : ¬ s.module.Owns b)
    (k : CellId) (c : Cell) (port : String) :
    handedSignal e (s.inserted e) (s.inserted e).renamed k c port [b] = [b] := by
  unfold handedSignal
  split
  · rw [List.map_singleton, movedBit_of_not_owns hs hm ha hb]
  · split
    · obtain ⟨b', rest, hbit, hrest, he⟩ := List.forall₂_cons_left_iff.mp
        (forall₂_restoredSignal (widths_renamed hs) [b])
      rw [List.forall₂_nil_left_iff.mp hrest] at he
      rw [he]
      rcases hbit with rfl | ⟨q, hq, i, -, rfl, -⟩
      · rfl
      · exact absurd (lt_of_mem_replaced hs hq) hb
    · rfl

/-- An inserted cell that has been handed over: its output may have been moved, its input is on
its wire. -/
theorem ports_handedCell (hs : s.Fresh) (hm : s.module.WellFormed)
    (ha : e.aliases = .ofConnections s.module.connections) {k : CellId} {name : String}
    {spec : BufferSpec} {output : Bit} {feed : WireId} (hne : spec.output ≠ spec.input)
    (hfeed : s.module.wires.length ≤ feed)
    (hout : e.signatures.isOutput (bufferCell name spec.type spec output feed) spec.output =
      true) :
    (handedCell e (s.inserted e) (s.inserted e).renamed k
      (bufferCell name spec.type spec output feed)).ports.entries =
        [(spec.output, [movedBit e (s.inserted e) k output]), (spec.input, [.wire feed 0])] := by
  have hinput := handedSignal_new hs hm ha (Module.not_owns hfeed 0) k
    (bufferCell name spec.type spec output feed) spec.input
  have houtput : handedSignal e (s.inserted e) (s.inserted e).renamed k
      (bufferCell name spec.type spec output feed) spec.output [output] =
        [movedBit e (s.inserted e) k output] := by
    unfold handedSignal
    rw [if_pos hout]
    rfl
  unfold handedCell OrderedTable.mapValues
  dsimp only
  rw [bufferCell_ports hne, List.map_cons, List.map_singleton, houtput, hinput]

theorem bridges_handedCell (hs : s.Fresh) (hm : s.module.WellFormed)
    (ha : e.aliases = .ofConnections s.module.connections) {k : CellId} {name : String}
    {spec : BufferSpec} {output : Bit} {feed : WireId} (hne : spec.output ≠ spec.input)
    (hfeed : s.module.wires.length ≤ feed)
    (hout : e.signatures.isOutput (bufferCell name spec.type spec output feed) spec.output =
      true) :
    (handedCell e (s.inserted e) (s.inserted e).renamed k
      (bufferCell name spec.type spec output feed)).bridges =
        [(movedBit e (s.inserted e) k output, .wire feed 0)] := by
  unfold Cell.bridges Cell.bitsWith
  rw [ports_handedCell hs hm ha hne hfeed hout]
  unfold handedCell
  simp [bufferCell_direction, hne]

theorem bridges_complete (hs : s.Fresh) (hm : s.module.WellFormed)
    (ha : e.aliases = .ofConnections s.module.connections) (hd : DrivesOutputs e) {k : CellId}
    (hk : s.module.cells.length ≤ k) (hlt : k < (s.inserted e).module.cells.length) :
    ∃ output feed, e.aliases.root output = output ∧
      ((s.inserted e).module.cell k).bridges = [(output, .wire feed 0)] ∧
      ((s.complete e).module.cell k).bridges =
        [(movedBit e (s.inserted e) k output, .wire feed 0)] := by
  obtain ⟨id, i, spec, output, feed, -, hspec, hc, ho⟩ :=
    (fitted_inserted (e := e) hs).cells k hk hlt
  obtain ⟨name, hshape⟩ := hc.shape
  obtain ⟨hne, hout⟩ := hd spec (mem_placeable_of_mem_parts hspec)
  refine ⟨output, feed, ?_, ?_, ?_⟩
  · rcases ho with ⟨rfl, -⟩ | ⟨f, hnew, rfl⟩
    · rw [ha]
      exact (AliasMap.settled_ofConnections _).root_root _
    · exact root_of_not_owns hm ha (Module.not_owns hnew.new 0)
  · rw [hshape, bufferCell_bridges hne]
  · rw [complete_cell hlt, hshape]
    exact bridges_handedCell hs hm ha hne hc.feeds.new (hout _ _ _)

/-- A cell whose output stays where it is keeps its pair. -/
theorem joined_stays (hs : s.Fresh) (hm : s.module.WellFormed)
    (ha : e.aliases = .ofConnections s.module.connections) (hd : DrivesOutputs e) {k : CellId}
    {spec : BufferSpec} {output : Bit} {feed : WireId} (hspec : spec ∈ e.options.placeable)
    (hc : CellAt s.module (s.inserted e) k spec output feed)
    (hstay : movedBit e (s.inserted e) k output = output) :
    Joined (links s.module.cells.length (s.complete e).module) output (.wire feed 0) := by
  obtain ⟨hne, hout⟩ := hd spec hspec
  obtain ⟨name, hshape⟩ := hc.shape
  refine Joined.of_mem (mem_links.mpr (.inr ⟨k, hc.new, ?_, ?_⟩))
  · rw [length_complete_cells]
    exact hc.lt
  · rw [complete_cell hc.lt, hshape,
      bridges_handedCell hs hm ha hne hc.feeds.new (hout _ _ _), hstay]
    exact List.mem_singleton.mpr rfl

/-- The chain that counts for a net is not moved. -/
theorem joined_chain (hs : s.Fresh) (hm : s.module.WellFormed)
    (ha : e.aliases = .ofConnections s.module.connections) (hd : DrivesOutputs e) {net : Bit}
    {p : Placement} (hp : (s.inserted e).placedOn? net = some p)
    (hroot : e.aliases.root net = net) :
    Joined (links s.module.cells.length (s.complete e).module) net (.wire p.feed 0) := by
  obtain ⟨id, i, spec, f, -, -, hspec, hc, ho⟩ :=
    (fitted_inserted (e := e) hs).placed net p (mem_of_placedOn? hp)
  have hfirst : movedBit e (s.inserted e) p.cell net = net := by
    unfold movedBit
    rw [hroot, hp]
    exact if_pos rfl
  have hj := joined_stays hs hm ha hd
    (mem_placeable_of_mem_parts (List.mem_of_mem_head? hspec)) hc hfirst
  rcases ho with rfl | ⟨k, spec', hmem', hk⟩
  · exact hj
  · exact hj.trans (joined_stays hs hm ha hd (mem_placeable_of_mem_parts hmem') hk
      (movedBit_of_not_owns hs hm ha (Module.not_owns hc.feeds.new 0) k))

/-- The handover joins what was joined before it, and nothing else. -/
theorem joined_complete (hs : s.Fresh) (hm : s.module.WellFormed)
    (ha : e.aliases = .ofConnections s.module.connections) (hd : DrivesOutputs e) (a b : Bit) :
    Joined (links s.module.cells.length (s.complete e).module) a b ↔
      Joined (links s.module.cells.length (s.inserted e).module) a b := by
  have hne : ∀ spec ∈ e.options.placeable, spec.output ≠ spec.input := fun spec hspec =>
    (hd spec hspec).1
  constructor
  · refine Joined.lift fun p hp => ?_
    rcases mem_links.mp hp with hp | ⟨k, hk, hlt, hp⟩
    · rw [complete_connections] at hp
      exact Joined.of_mem (mem_links.mpr (.inl hp))
    · rw [length_complete_cells] at hlt
      obtain ⟨output, feed, -, hb, hb'⟩ := bridges_complete hs hm ha hd hk hlt
      rw [hb'] at hp
      rw [List.mem_singleton.mp hp]
      refine (joined_movedBit hs ha hne k output).symm.trans (Joined.of_mem ?_)
      refine mem_links.mpr (.inr ⟨k, hk, hlt, ?_⟩)
      rw [hb]
      exact List.mem_singleton.mpr rfl
  · refine Joined.lift fun p hp => ?_
    rcases mem_links.mp hp with hp | ⟨k, hk, hlt, hp⟩
    · refine Joined.of_mem (mem_links.mpr (.inl ?_))
      rw [complete_connections]
      exact hp
    · obtain ⟨output, feed, hroot, hb, hb'⟩ := bridges_complete hs hm ha hd hk hlt
      rw [hb] at hp
      rw [List.mem_singleton.mp hp]
      have hpair : Joined (links s.module.cells.length (s.complete e).module)
          (movedBit e (s.inserted e) k output) (.wire feed 0) := by
        refine Joined.of_mem (mem_links.mpr (.inr ⟨k, hk, ?_, ?_⟩))
        · rw [length_complete_cells]
          exact hlt
        · rw [hb']
          exact List.mem_singleton.mpr rfl
      refine Joined.trans ?_ hpair
      unfold movedBit
      rw [hroot]
      split
      · rename_i q hq
        split
        · exact Joined.refl _
        · exact joined_chain hs hm ha hd hq hroot
      · exact Joined.refl _

end Handover

/-! ## Endpoints -/

/-- A place where a connection ends: a bit of a cell's port, a bit of a port of the module, or
a constant. -/
inductive Endpoint where
  | cell (name port : String) (index : Nat)
  | port (name : String) (index : Nat)
  | const (value : Trit)
deriving DecidableEq

/-- The bit at an endpoint, if the module has the endpoint. -/
def bitAt? (m : Module) : Endpoint → Option Bit
  | .cell name port index => (m.findCell name).bind fun id =>
      ((m.cell id).ports.get? port).bind (·[index]?)
  | .port name index => (m.findWire name).bind fun id =>
      if (m.wire id).isPort ∧ index < (m.wire id).width then some (.wire id index) else none
  | .const t => some (.const t)

section Endpoints
variable {e : Scene} {s : Insertion}

open Insertion

theorem forall₂_getElem? {R : Bit → Bit → Prop} {l l' : Signal} (h : List.Forall₂ R l l')
    {i : Nat} {a : Bit} (ha : l[i]? = some a) : ∃ b, l'[i]? = some b ∧ R a b := by
  induction h generalizing i with
  | nil => cases ha
  | cons hab _ ih =>
    cases i with
    | zero =>
      cases ha
      exact ⟨_, rfl, hab⟩
    | succ i => exact ih ha

theorem bitAt?_complete_cell (hs : s.Fresh) (hm : s.module.WellFormed)
    (ha : e.aliases = .ofConnections s.module.connections)
    (hne : ∀ spec ∈ e.options.placeable, spec.output ≠ spec.input) {name port : String}
    {index : Nat} {a : Bit} (hx : bitAt? s.module (.cell name port index) = some a) :
    s.module.Owns a ∧ ∃ a', bitAt? (s.complete e).module (.cell name port index) = some a' ∧
      Joined (links s.module.cells.length (s.inserted e).module) a a' := by
  obtain ⟨id, hid, hsome⟩ := Option.bind_eq_some_iff.mp hx
  obtain ⟨signal, hsignal, hbit⟩ := Option.bind_eq_some_iff.mp hsome
  obtain ⟨hlt, rfl⟩ := Module.name_of_findCell hid
  have hcell : s.module.cell id ∈ s.module.cells := by
    rw [Module.cell_eq_getElem hlt]
    exact List.getElem_mem hlt
  have howns := (hm.cell_bits _ hcell _ (OrderedTable.mem_of_get? hsignal) a
    (List.mem_of_getElem? hbit)).owns
  obtain ⟨a', ha', hj⟩ := forall₂_getElem?
    (joined_handedSignal hs ha hne id (s.module.cell id) port signal) hbit
  refine ⟨howns, a', ?_, hj⟩
  simp only [bitAt?]
  rw [findCell_complete hs hlt, Option.bind_some, complete_cell_old hs hlt]
  unfold handedCell
  dsimp only
  rw [OrderedTable.get?_mapValues, hsignal]
  exact ha'

/-- A port of the start is a port in the end, and where a copy has taken its place the two are
joined. -/
theorem bitAt?_complete_port (hs : s.Fresh)
    (ha : e.aliases = .ofConnections s.module.connections)
    (hne : ∀ spec ∈ e.options.placeable, spec.output ≠ spec.input) {name : String}
    {index : Nat} {a : Bit} (hx : bitAt? s.module (.port name index) = some a) :
    s.module.Owns a ∧ ∃ a', bitAt? (s.complete e).module (.port name index) = some a' ∧
      Joined (links s.module.cells.length (s.inserted e).module) a a' := by
  obtain ⟨id, hid, hsome⟩ := Option.bind_eq_some_iff.mp hx
  obtain ⟨hlt, rfl⟩ := Module.name_of_findWire hid
  split at hsome
  · rename_i hport
    cases hsome
    refine ⟨hlt, .wire ((s.inserted e).standIn id) index, ?_, ?_⟩
    · simp only [bitAt?]
      rw [findWire_complete hs hlt, Option.bind_some, complete_wire_standIn hs hlt]
      exact if_pos hport
    · rcases standIn_cases (s.inserted e) id with hmem | ⟨-, he⟩
      · exact joined_copy hs ha hne hmem hport.2
      · rw [he]
        exact Joined.refl _
  · cases hsome

theorem bitAt?_complete (hs : s.Fresh) (hm : s.module.WellFormed)
    (ha : e.aliases = .ofConnections s.module.connections)
    (hne : ∀ spec ∈ e.options.placeable, spec.output ≠ spec.input) {x : Endpoint} {a : Bit}
    (hx : bitAt? s.module x = some a) : s.module.Owns a ∧
      ∃ a', bitAt? (s.complete e).module x = some a' ∧
        Joined (links s.module.cells.length (s.inserted e).module) a a' := by
  cases x with
  | cell name port index => exact bitAt?_complete_cell hs hm ha hne hx
  | port name index => exact bitAt?_complete_port hs ha hne hx
  | const t =>
    cases hx
    exact ⟨trivial, .const t, rfl, Joined.refl _⟩

end Endpoints

/-! ## Whole runs -/

/-- The output of an inserted cell counts as an output when its module is visited. -/
theorem isOutput_bufferCell {o : Options} {d : Design} (hd : d.NamesUnique) {spec : BufferSpec}
    (hne : spec.output ≠ spec.input)
    (hout : ∀ t ∈ d.find? spec.type, Insertion.Declares t spec.output .output) (m : Module)
    (name : String) (output : Bit) (feed : WireId) :
    (sceneOf o d m).signatures.isOutput (bufferCell name spec.type spec output feed)
      spec.output = true := by
  have hdir : (sceneOf o d m).signatures.direction
      (bufferCell name spec.type spec output feed) spec.output = some .output := by
    refine (direction_ofDesign _ _ _).trans ?_
    rw [bufferCell_type]
    cases hf : d.find? spec.type with
    | none =>
      rw [find?_progressBefore_none hd hf]
      dsimp only
      rw [bufferCell_direction, if_neg hne, if_pos rfl]
    | some t =>
      have hname := Design.name_of_find? hf
      obtain ⟨t', hf', hdeclares⟩ := declares_progressAfter (o := o) hd
        (nodup_visitedBefore o d m.name) (hout t hf) (Design.mem_of_find? hf)
      rw [hname] at hf'
      have hfind : (progressBefore o d m.name).design.find? spec.type = some t' := hf'
      rw [hfind]
      dsimp only
      rw [hdeclares]
      rfl
  unfold Signatures.isOutput
  rw [hdir]
  rfl

theorem drivesOutputs_sceneOf {o : Options} {d : Design} (hd : d.NamesUnique)
    (ho : ∀ spec ∈ o.placeable, spec.Sound d) (m : Module) : DrivesOutputs (sceneOf o d m) := by
  intro spec hspec
  obtain ⟨hne, hout, -⟩ := ho spec hspec
  exact ⟨hne, isOutput_bufferCell hd hne hout m⟩

/-- A run keeps what is connected: two endpoints of a module are joined by its connections if
and only if, after the run, they are joined by the connections together with the inserted cells,
each taken as a connection between its output and its input. -/
theorem connectivity_preserved {o : Options} {d : Design} {p : Progress} {m : Module}
    (hd : d.WellFormed) (ho : ∀ spec ∈ o.placeable, spec.Sound d) (h : run o d = .ok p)
    (hm : m ∈ d.modules) : ∃ m', p.design.find? m.name = some m' ∧
      ∀ x y a b, bitAt? m x = some a → bitAt? m y = some b →
        ∃ a' b', bitAt? m' x = some a' ∧ bitAt? m' y = some b' ∧
          (Joined (AliasMap.pairsOf m.connections) a b ↔
            Joined (links m.cells.length m') a' b') := by
  have hwell := hd.modules m hm
  rcases find?_run hd.namesUnique h hm with ⟨-, hf⟩ | ⟨-, hf⟩
  · refine ⟨_, hf, fun x y a b hx hy => ?_⟩
    have hs : (entryIn o d (progressBefore o d m.name) m).Fresh := fresh_entry hwell.namesUnique
    have hne : ∀ spec ∈ o.placeable, spec.output ≠ spec.input := fun spec hspec =>
      (ho spec hspec).distinct
    obtain ⟨hoa, a', ha', hja⟩ := bitAt?_complete (e := sceneOf o d m) hs hwell rfl hne hx
    obtain ⟨hob, b', hb', hjb⟩ := bitAt?_complete (e := sceneOf o d m) hs hwell rfl hne hy
    refine ⟨a', b', ha', hb', ?_⟩
    have hkept := (kept_inserted (e := sceneOf o d m) hs hwell rfl hne).joined a b hoa hob
    have hend := joined_complete (e := sceneOf o d m) hs hwell rfl
      (drivesOutputs_sceneOf hd.namesUnique ho m) a' b'
    exact hkept.symm.trans ((hja.congr_left.trans hjb.congr_right).trans hend.symm)
  · have hlinks : links m.cells.length m = AliasMap.pairsOf m.connections := by
      unfold links
      rw [List.drop_length]
      exact List.append_nil _
    refine ⟨m, hf, fun x y a b hx hy => ⟨a, b, hx, hy, ?_⟩⟩
    rw [hlinks]

/-! ## A register behind a clock input -/

def marked (name : String) : Attributes := SortedTable.empty.insert name (Value.ofBool true)

/-- A primitive with a clock input that needs a buffer. -/
def registerType : Module :=
  { name := "DFF"
    attributes := marked Attribute.blackbox
    wires := [{ name := "C", width := 1, isInput := true, position := 1,
                attributes := marked Attribute.sink }]
    ports := [0] }

/-- A primitive with an output and an input. -/
def bufferPrimitive : Module :=
  { name := "BUFG"
    attributes := marked Attribute.blackbox
    wires := [{ name := "O", width := 1, isOutput := true, position := 1 },
              { name := "I", width := 1, isInput := true, position := 2 }]
    ports := [0, 1] }

/-- A clock input that drives a register. -/
def clockedTop : Module :=
  { name := "top"
    attributes := marked Attribute.top
    wires := [{ name := "clk", width := 1, isInput := true, position := 1 }]
    cells := [{ name := "ff", type := "DFF", ports := OrderedTable.empty.set "C" [.wire 0 0] }]
    ports := [0] }

def clockedRegister : Design := ⟨[registerType, bufferPrimitive, clockedTop]⟩

def bufferAndPad : Options :=
  { buffer := some ⟨"BUFG", "O", "I"⟩, pad := some ⟨"IBUF", "O", "I"⟩ }

/-- The register hangs on its clock input through the buffer and the pad only. -/
theorem connectivity_preserved_register : clockedRegister.WellFormed ∧
    (∀ spec ∈ bufferAndPad.placeable, spec.Sound clockedRegister) ∧
    ∃ p m a b, run bufferAndPad clockedRegister = .ok p ∧ p.design.find? "top" = some m ∧
      bitAt? m (.port "clk" 0) = some a ∧ bitAt? m (.cell "ff" "C" 0) = some b ∧ a ≠ b ∧
      Joined (links 1 m) a b := by
  have hd : clockedRegister.WellFormed := by decide
  have ho : ∀ spec ∈ bufferAndPad.placeable, spec.Sound clockedRegister := by decide
  obtain ⟨p, hp⟩ : ∃ p, run bufferAndPad clockedRegister = .ok p := ⟨_, rfl⟩
  have hm : clockedTop ∈ clockedRegister.modules := by decide
  obtain ⟨m, hf, hall⟩ := connectivity_preserved hd ho hp hm
  obtain ⟨a, b, ha, hb, hiff⟩ :=
    hall (.port "clk" 0) (.cell "ff" "C" 0) (.wire 0 0) (.wire 0 0) (by decide) (by decide)
  have hends : ((run bufferAndPad clockedRegister).toOption.bind fun p =>
      (p.design.find? "top").map fun m =>
        (bitAt? m (.port "clk" 0), bitAt? m (.cell "ff" "C" 0))) =
      some (some (.wire 3 0), some (.wire 0 0)) := by cbv
  have hf' : p.design.find? "top" = some m := hf
  rw [hp] at hends
  simp only [Except.toOption, Option.bind_some, hf', Option.map_some, ha, hb, Option.some.injEq,
    Prod.mk.injEq] at hends
  obtain ⟨rfl, rfl⟩ := hends
  exact ⟨hd, ho, p, m, _, _, hp, hf', ha, hb, by decide, hiff.mp (Joined.refl _)⟩

end Buffering

end ClockNet

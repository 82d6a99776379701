import ClockNet.Proofs.Chunks
import ClockNet.Proofs.Pins
import Mathlib.Data.Set.Card

/-! # What restoring the loads changes

Loads that take no clock go back from the wire that a buffer now drives to the copy of the port.
A signal is restored chunk by chunk, and what comes out falls into just these chunks again
(`chunks_restoredSignal`): a copy begins with its first bit, which goes on from nothing, and no
signal has a bit that a copy could go on into. So no chunk is all of a replaced port any more, the
count is that of the ports that have changed, and restoring again does nothing
(`restoration_exact`). A visit of the pass comes to its loads with such copies, and on none of their
bits is a cell, so this is what every visit does (`restoration_visit`). -/

namespace ClockNet.Buffering.Insertion

/-! ## Chunks -/

/-- The copies of replaced ports are as wide as the ports, and are no replaced ports. -/
structure Copied (m : Module) (replaced : List (WireId × WireId)) : Prop where
  width : ∀ q ∈ replaced, (m.wire q.2).width = (m.wire q.1).width
  apart : ∀ q ∈ replaced, ∀ r ∈ replaced, q.1 ≠ r.2

instance (m : Module) (replaced : List (WireId × WireId)) : Decidable (Copied m replaced) :=
  decidable_of_iff ((∀ q ∈ replaced, (m.wire q.2).width = (m.wire q.1).width) ∧
      ∀ q ∈ replaced, ∀ r ∈ replaced, q.1 ≠ r.2)
    ⟨fun ⟨h₁, h₂⟩ => ⟨h₁, h₂⟩, fun h => ⟨h.1, h.2⟩⟩

/-- No bit of a copy is in a signal. -/
def Uncopied (replaced : List (WireId × WireId)) (signal : Signal) : Prop :=
  ∀ q ∈ replaced, ∀ i, .wire q.2 i ∉ signal

theorem uncopied_iff {replaced : List (WireId × WireId)} {signal : Signal} :
    Uncopied replaced signal ↔ ∀ q ∈ replaced, ∀ b ∈ signal, b.wire? ≠ some q.2 := by
  constructor
  · intro h q hq b hb he
    cases b with
    | const t => cases he
    | wire id i =>
      cases he
      exact h q hq i hb
  · exact fun h q hq i hmem => h q hq _ hmem rfl

instance (replaced : List (WireId × WireId)) (signal : Signal) :
    Decidable (Uncopied replaced signal) := decidable_of_iff _ uncopied_iff.symm

/-- What becomes of a chunk: all of a replaced port turns into all of its copy, and any other
chunk stays. -/
inductive Swapped (m : Module) (replaced : List (WireId × WireId)) : Signal → Signal → Prop where
  | copy {q : WireId × WireId} (hq : q ∈ replaced) :
      Swapped m replaced (m.wireSignal q.1) (m.wireSignal q.2)
  | same {chunk : Signal} (h : ∀ q ∈ replaced, m.wireSignal q.1 ≠ chunk) :
      Swapped m replaced chunk chunk

section Chunks
variable {m : Module} {replaced : List (WireId × WireId)} {a a' b b' chunk signal : Signal}

theorem swapped_restoredChunk (m : Module) (replaced : List (WireId × WireId)) (chunk : Signal) :
    Swapped m replaced chunk (restoredChunk m replaced chunk) := by
  unfold restoredChunk
  cases h : replaced.find? fun q => m.wireSignal q.1 == chunk with
  | none =>
    refine .same fun q hq => ?_
    simpa using List.find?_eq_none.mp h q hq
  | some q =>
    have he : m.wireSignal q.1 = chunk := by simpa using List.find?_some h
    subst he
    exact .copy (List.mem_of_find?_eq_some h)

theorem restoredChunk_of_ne (h : ∀ q ∈ replaced, m.wireSignal q.1 ≠ chunk) :
    restoredChunk m replaced chunk = chunk := by
  have hnone : replaced.find? (fun q => m.wireSignal q.1 == chunk) = none :=
    List.find?_eq_none.mpr fun q hq => by simpa using h q hq
  unfold restoredChunk
  rw [hnone]

theorem length_wireSignal (m : Module) (id : WireId) :
    (m.wireSignal id).length = (m.wire id).width := by
  simp [Module.wireSignal, Signal.ofWire]

theorem Swapped.length_eq (hc : Copied m replaced) (h : Swapped m replaced a a') :
    a'.length = a.length := by
  cases h with
  | copy hq => rw [length_wireSignal, length_wireSignal, hc.width _ hq]
  | same h => rfl

theorem Swapped.ne_nil (hc : Copied m replaced) (h : Swapped m replaced a a') (ha : a ≠ []) :
    a' ≠ [] := by
  rw [← List.length_pos_iff, h.length_eq hc]
  exact List.length_pos_iff.mpr ha

theorem Swapped.ne_port (hc : Copied m replaced) (h : Swapped m replaced a a') (ha : a ≠ [])
    {q : WireId × WireId} (hq : q ∈ replaced) : m.wireSignal q.1 ≠ a' := by
  have hne := h.ne_nil hc ha
  cases h with
  | same h => exact h q hq
  | @copy r hr =>
    intro he
    -- the first bit of the copy would be one of the port
    obtain ⟨b, rest, hb⟩ := List.exists_cons_of_ne_nil hne
    have hcopy : b ∈ m.wireSignal r.2 := by rw [hb]; exact List.mem_cons_self
    have hport := hcopy
    rw [← he] at hport
    obtain ⟨i, -, rfl⟩ := List.mem_map.mp hcopy
    obtain ⟨j, -, hj⟩ := List.mem_map.mp hport
    exact hc.apart q hq r hr (Bit.wire.inj hj).1

theorem Swapped.isChain (h : Swapped m replaced a a')
    (ha : a.IsChain fun b c => b.continues c = true) :
    a'.IsChain fun b c => b.continues c = true := by
  cases h with
  | same h => exact ha
  | @copy q hq =>
    unfold Module.wireSignal Signal.ofWire
    rw [List.isChain_map, List.range_eq_range']
    exact (List.isChain_range' 0 _ 1).imp fun i j hij => by simp [Bit.continues, hij]

theorem continues_head_wireSignal (b : Bit) {id : WireId} (h : m.wireSignal id ≠ []) :
    b.continues ((m.wireSignal id).head h) = false := by
  have hhead : (m.wireSignal id).head h = .wire id 0 := by
    simp [Module.wireSignal, Signal.ofWire]
  rw [hhead]
  cases b <;> simp [Bit.continues]

/-- Chunks that do not go on into each other do not do so afterwards either. -/
theorem Swapped.apart (hc : Copied m replaced) (ha : Swapped m replaced a a')
    (hb : Swapped m replaced b b') (hfree : Uncopied replaced b) (h : Signal.Apart a b) :
    Signal.Apart a' b' := by
  obtain ⟨hane, hbne, hgap⟩ := h
  have hane' := ha.ne_nil hc hane
  refine ⟨hane', hb.ne_nil hc hbne, ?_⟩
  cases hb with
  | copy hq => exact continues_head_wireSignal _ _
  | same hb =>
    cases ha with
    | same ha => exact hgap
    | @copy q hq =>
      -- what would go on from a copy is a bit of the copy
      have hlast : (m.wireSignal q.2).getLast hane' ∈ m.wireSignal q.2 := List.getLast_mem _
      obtain ⟨i, -, hi⟩ := List.mem_map.mp hlast
      rw [← hi]
      have hnext : b.head hbne ∈ b := List.head_mem hbne
      cases hh : b.head hbne with
      | const t => rfl
      | wire id j =>
        rw [hh] at hnext
        simp only [Bit.continues, Bool.and_eq_false_iff, beq_eq_false_iff_ne]
        exact .inl fun he => hfree q hq j (he ▸ hnext)

end Chunks

/-! ## Signals -/

section Signals
variable {m : Module} {replaced : List (WireId × WireId)} {signal : Signal}

/-- Restored chunks are the chunks of the restored signal: none of them join or fall apart. -/
theorem chunks_restoredSignal (hc : Copied m replaced) (hfree : Uncopied replaced signal) :
    (restoredSignal m replaced signal).chunks = signal.chunks.map (restoredChunk m replaced) := by
  have hswap := swapped_restoredChunk m replaced
  unfold restoredSignal
  rw [List.flatMap_def]
  refine Signal.chunks_flatten ?_ ?_ ?_
  · intro h
    obtain ⟨chunk, hchunk, he⟩ := List.mem_map.mp h
    exact (hswap chunk).ne_nil hc (Signal.isChunk_of_mem_chunks hchunk).ne_nil he
  · intro part hpart
    obtain ⟨chunk, hchunk, rfl⟩ := List.mem_map.mp hpart
    exact (hswap chunk).isChain (Signal.isChunk_of_mem_chunks hchunk).isChain
  · rw [List.isChain_map]
    have hchain := List.IsChain.iff_mem.mp (Signal.isChain_apart_chunks signal)
    refine hchain.imp fun a b hab => ?_
    obtain ⟨-, hb, hgap⟩ := hab
    refine (hswap a).apart hc (hswap b) (fun q hq i hmem => ?_) hgap
    exact hfree q hq i (Signal.mem_of_mem_chunks hb hmem)

theorem forall₂_chunks_restoredSignal (hc : Copied m replaced) (hfree : Uncopied replaced signal) :
    List.Forall₂ (Swapped m replaced) signal.chunks (restoredSignal m replaced signal).chunks := by
  rw [chunks_restoredSignal hc hfree, List.forall₂_map_right_iff, List.forall₂_same]
  exact fun chunk _ => swapped_restoredChunk m replaced chunk

theorem length_restoredSignal (hc : Copied m replaced) :
    (restoredSignal m replaced signal).length = signal.length :=
  (forall₂_restoredSignal hc.width signal).length_eq.symm

theorem ne_port_of_mem_chunks (hc : Copied m replaced) (hfree : Uncopied replaced signal)
    {chunk : Signal} (hchunk : chunk ∈ (restoredSignal m replaced signal).chunks)
    {q : WireId × WireId} (hq : q ∈ replaced) : m.wireSignal q.1 ≠ chunk := by
  rw [chunks_restoredSignal hc hfree] at hchunk
  obtain ⟨old, hold, rfl⟩ := List.mem_map.mp hchunk
  exact (swapped_restoredChunk m replaced old).ne_port hc
    (Signal.isChunk_of_mem_chunks hold).ne_nil hq

/-- Restoring a signal again changes nothing. -/
theorem restoredSignal_restoredSignal (hc : Copied m replaced)
    (hfree : Uncopied replaced signal) :
    restoredSignal m replaced (restoredSignal m replaced signal) =
      restoredSignal m replaced signal := by
  have hfix : ∀ chunk ∈ (restoredSignal m replaced signal).chunks,
      restoredChunk m replaced chunk = id chunk := fun chunk hchunk =>
    restoredChunk_of_ne fun q hq => ne_port_of_mem_chunks hc hfree hchunk hq
  conv_lhs => rw [restoredSignal]
  rw [List.flatMap_def, List.map_congr_left hfix, List.map_id, Signal.flatten_chunks]

end Signals

/-! ## Cells -/

/-- A port of a cell that takes no clock: the type lies on no clock path and is not the buffer
type, and the port is not an output. -/
def TakesNoClock (e : Scene) (s : Insertion) (c : Cell) (port : String) : Prop :=
  c.type ∉ s.tags.clocked ∧ (∀ buffer, e.options.buffer = some buffer → buffer.type ≠ c.type) ∧
    e.signatures.isOutput c port = false

/-- The ports of cells at which the modules of two states differ. -/
def changed (s t : Insertion) : Set (CellId × String) :=
  {p | (s.module.cell p.1).ports.get? p.2 ≠ (t.module.cell p.1).ports.get? p.2}

/-- A state is another one with its loads restored. -/
structure Restoration (e : Scene) (s t : Insertion) : Prop where
  /-- Nothing but cells, events and the count differs. -/
  rest : t = { s with
    module := { s.module with cells := t.module.cells }
    events := t.events
    stats := { s.stats with restoredPorts := s.stats.restoredPorts + (changed s t).ncard } }
  /-- A cell keeps all but the signals of its ports. -/
  cell : ∀ id, t.module.cell id =
    { s.module.cell id with ports := (t.module.cell id).ports }
  names : ∀ id, (t.module.cell id).ports.entries.map Prod.fst =
    (s.module.cell id).ports.entries.map Prod.fst
  kept : ∀ id port, ¬ TakesNoClock e s (s.module.cell id) port →
    (t.module.cell id).ports.get? port = (s.module.cell id).ports.get? port
  /-- Chunk by chunk, a load that takes no clock goes to the copies of replaced ports. -/
  load : ∀ id port, TakesNoClock e s (s.module.cell id) port →
    ∀ signal, (s.module.cell id).ports.get? port = some signal →
      ∃ signal', (t.module.cell id).ports.get? port = some signal' ∧
        signal'.length = signal.length ∧
        List.Forall₂ (Swapped s.module s.replaced) signal.chunks signal'.chunks ∧
        ∀ q ∈ s.replaced, s.module.wireSignal q.1 ∉ signal'.chunks
  again : t.restoreLoads e = t

section Cells
variable {e : Scene} {s : Insertion}

theorem lt_of_port {m : Module} {id : CellId} {port : String} {signal : Signal}
    (h : (m.cell id).ports.get? port = some signal) : id < m.cells.length := by
  by_contra hge
  unfold Module.cell at h
  rw [List.getElem?_eq_none (Nat.le_of_not_lt hge)] at h
  cases h

theorem takesNoClock_iff {c : Cell} {port : String} : TakesNoClock e s c port ↔
    (restores e.options s.tags c && !e.signatures.isOutput c port) = true := by
  unfold TakesNoClock restores
  cases e.options.buffer <;> simp [and_assoc]

theorem restoredPort_of_takesNoClock {c : Cell} {port : String} (h : TakesNoClock e s c port)
    (signal : Signal) :
    restoredPort e s c port signal = restoredSignal s.module s.replaced signal := by
  unfold restoredPort
  rw [if_pos (takesNoClock_iff.mp h)]

theorem restoredPort_of_not {c : Cell} {port : String} (h : ¬ TakesNoClock e s c port)
    (signal : Signal) : restoredPort e s c port signal = signal := by
  unfold restoredPort
  rw [if_neg fun h' => h (takesNoClock_iff.mpr h')]

theorem restoredPort_restoredPort (hc : Copied s.module s.replaced) {c : Cell} {port : String}
    {signal : Signal} (hfree : Uncopied s.replaced signal) :
    restoredPort e s c port (restoredPort e s c port signal) = restoredPort e s c port signal := by
  by_cases h : TakesNoClock e s c port
  · simp only [restoredPort_of_takesNoClock h]
    exact restoredSignal_restoredSignal hc hfree
  · simp only [restoredPort_of_not h]

theorem restoredPort_restoreLoads (c : Cell) (port : String) (signal : Signal) :
    restoredPort e (s.restoreLoads e) (restoreCell e s c) port signal =
      restoredPort e s c port signal := by
  have ho : e.signatures.isOutput (restoreCell e s c) port = e.signatures.isOutput c port :=
    isOutput_congr e.signatures rfl rfl port
  unfold restoredPort
  rw [ho]
  unfold restoreLoads
  split <;> rfl

theorem cells_restoreLoads (hc : s.tags.clocked ≠ []) :
    (s.restoreLoads e).module.cells = s.module.cells.map (restoreCell e s) := by
  unfold restoreLoads
  rw [if_neg (by simpa using hc)]

theorem cell_restoreLoads (hc : s.tags.clocked ≠ []) (id : CellId) :
    (s.restoreLoads e).module.cell id = restoreCell e s (s.module.cell id) := by
  unfold Module.cell
  rw [cells_restoreLoads hc, List.getElem?_map]
  cases s.module.cells[id]? with
  | none => rfl
  | some c => rfl

theorem get?_restoreLoads (hc : s.tags.clocked ≠ []) (id : CellId) (port : String) :
    ((s.restoreLoads e).module.cell id).ports.get? port =
      ((s.module.cell id).ports.get? port).map (restoredPort e s (s.module.cell id) port) := by
  rw [cell_restoreLoads hc]
  exact OrderedTable.get?_mapValues _ _ _

/-- The ports whose signals restoring changes, cell by cell. -/
def changedPairs (e : Scene) (s : Insertion) : List (CellId × String) :=
  s.module.cells.zipIdx.flatMap fun c => (changedPorts e s c.1).map (Prod.mk c.2)

theorem length_changedPairs : (changedPairs e s).length = (s.module.cells.flatMap fun c =>
    (changedPorts e s c).map (Event.restoring c.name)).length := by
  have hcells : s.module.cells = s.module.cells.zipIdx.map Prod.fst :=
    (List.zipIdx_map_fst 0 s.module.cells).symm
  unfold changedPairs
  conv_rhs => rw [hcells]
  simp only [List.length_flatMap, List.map_map, Function.comp_def, List.length_map]

theorem nodup_changedPairs : (changedPairs e s).Nodup := by
  unfold changedPairs
  rw [List.nodup_flatMap]
  constructor
  · intro c _
    refine List.Nodup.map (fun _ _ h => (Prod.mk.inj h).2) ?_
    exact (List.filter_sublist.map Prod.fst).nodup c.1.ports.nodup
  · have hids : (s.module.cells.zipIdx.map Prod.snd).Nodup := by
      rw [List.zipIdx_map_snd]
      exact List.nodup_range'
    refine (List.pairwise_map.mp hids).imp fun hne => ?_
    intro p hp hp'
    obtain ⟨_, -, rfl⟩ := List.mem_map.mp hp
    obtain ⟨_, -, he⟩ := List.mem_map.mp hp'
    exact hne (Prod.mk.inj he).1.symm

theorem mem_changedPairs (hc : s.tags.clocked ≠ []) {p : CellId × String} :
    p ∈ changedPairs e s ↔ p ∈ changed s (s.restoreLoads e) := by
  obtain ⟨id, port⟩ := p
  unfold changed
  rw [Set.mem_ofPred_eq, get?_restoreLoads hc]
  unfold changedPairs changedPorts
  simp only [List.mem_flatMap, List.mem_map, List.mem_filter, bne_iff_ne, ne_eq]
  constructor
  · intro h
    obtain ⟨⟨c, id'⟩, hcell, port', ⟨⟨port'', signal⟩, ⟨hmem, hne⟩, rfl⟩, he⟩ := h
    obtain ⟨rfl, rfl⟩ := Prod.mk.inj he
    have hget : s.module.cell id' = c := by
      unfold Module.cell
      rw [List.mk_mem_zipIdx_iff_getElem?.mp hcell]
      rfl
    rw [hget, OrderedTable.get?_of_mem hmem]
    exact fun he => hne (Option.some.inj he).symm
  · intro hne
    cases hport : (s.module.cell id).ports.get? port with
    | none => exact absurd (by rw [hport]; rfl) hne
    | some signal =>
      have hid := lt_of_port hport
      rw [hport] at hne
      refine ⟨(s.module.cell id, id), ?_, port, ⟨(port, signal), ⟨OrderedTable.mem_of_get? hport,
        fun he => hne (congrArg some he).symm⟩, rfl⟩, rfl⟩
      rw [List.mk_mem_zipIdx_iff_getElem?, Module.cell_eq_getElem hid]
      exact List.getElem?_eq_getElem hid

theorem ncard_changed (hc : s.tags.clocked ≠ []) :
    (changed s (s.restoreLoads e)).ncard = (changedPairs e s).length := by
  have hset : changed s (s.restoreLoads e) = ((changedPairs e s).toFinset : Set _) := by
    ext p
    rw [List.coe_toFinset, Set.mem_ofPred_eq, mem_changedPairs hc]
  rw [hset, Set.ncard_coe_finset, List.toFinset_card_of_nodup nodup_changedPairs]

theorem restoreLoads_eq_self
    (h : ∀ c ∈ s.module.cells, ∀ p ∈ c.ports.entries, restoredPort e s c p.1 p.2 = p.2) :
    s.restoreLoads e = s := by
  have hcells : s.module.cells.map (restoreCell e s) = s.module.cells := by
    refine (List.map_congr_left fun c hcell => ?_).trans (List.map_id _)
    have hports : c.ports.mapValues (restoredPort e s c) = c.ports := by
      refine OrderedTable.ext ((List.map_congr_left fun p hp => ?_).trans (List.map_id _))
      rw [h c hcell p hp]
      rfl
    unfold restoreCell
    rw [hports]
    rfl
  have hchanges : (s.module.cells.flatMap fun c =>
      (changedPorts e s c).map (Event.restoring c.name)) = [] := by
    refine List.flatMap_eq_nil_iff.mpr fun c hcell => ?_
    unfold changedPorts
    rw [List.filter_eq_nil_iff.mpr fun p hp => by simpa using h c hcell p hp]
    rfl
  unfold restoreLoads
  split
  · rfl
  · dsimp only
    rw [hcells, hchanges, List.append_nil]
    rfl

end Cells

theorem restoration_restoreLoads {e : Scene} {s : Insertion} (hclocked : s.tags.clocked ≠ [])
    (hc : Copied s.module s.replaced)
    (hfree : ∀ c ∈ s.module.cells, ∀ p ∈ c.ports.entries, Uncopied s.replaced p.2) :
    Restoration e s (s.restoreLoads e) where
  rest := by
    rw [ncard_changed hclocked, length_changedPairs]
    unfold restoreLoads
    rw [if_neg (by simpa using hclocked)]
  cell id := by
    rw [cell_restoreLoads hclocked]
    rfl
  names id := by
    rw [cell_restoreLoads hclocked]
    exact List.map_map
  kept k port h := by
    have hkeep : restoredPort e s (s.module.cell k) port = id := funext (restoredPort_of_not h)
    rw [get?_restoreLoads hclocked, hkeep, Option.map_id_fun, id]
  load k port h signal hsignal := by
    have hsig : Uncopied s.replaced signal :=
      hfree _ (Module.cell_mem (lt_of_port hsignal)) _ (OrderedTable.mem_of_get? hsignal)
    refine ⟨restoredSignal s.module s.replaced signal, ?_, length_restoredSignal hc,
      forall₂_chunks_restoredSignal hc hsig, ?_⟩
    · rw [get?_restoreLoads hclocked, hsignal, Option.map_some, restoredPort_of_takesNoClock h]
    · exact fun q hq hmem => ne_port_of_mem_chunks hc hsig hmem hq rfl
  again := by
    refine restoreLoads_eq_self fun c' hc' p' hp' => ?_
    rw [cells_restoreLoads hclocked] at hc'
    obtain ⟨c, hcell, rfl⟩ := List.mem_map.mp hc'
    obtain ⟨p, hp, rfl⟩ := List.mem_map.mp hp'
    rw [restoredPort_restoreLoads]
    exact restoredPort_restoredPort hc (hfree c hcell p hp)

/-- Restoring changes the loads that take no clock, and nothing else: each chunk of their signals
that is all of a replaced port turns into all of the copy. It counts the ports that change, and
there is nothing left to restore. -/
theorem restoration_exact {e : Scene} {s : Insertion} (hclocked : s.tags.clocked ≠ [])
    (hc : Copied s.module s.replaced)
    (hfree : ∀ c ∈ s.module.cells, ∀ p ∈ c.ports.entries, Uncopied s.replaced p.2) :
    Restoration e s (s.restoreLoads e) := restoration_restoreLoads hclocked hc hfree

/-- A bus and a wire of one bit with their copies, a flip-flop on the clock path, and a table that
reads parts of the bus, all of it, the wire and constants in one port and drives it from another. -/
def mixedLoads : Insertion where
  module := {
    name := "top"
    wires := [{ name := "$1", width := 2 }, { name := "$2", width := 1 },
      { name := "bus", width := 2, isInput := true, position := 1 },
      { name := "clk", width := 1, isInput := true, position := 2 }]
    cells := [
      (({ name := "table", type := "LUT" : Cell }.setPort "I" [.wire 0 1, .wire 0 0, .wire 0 1,
        .wire 0 0, .wire 0 1, .const .one, .wire 1 0, .wire 1 0, .wire 0 0]).setPort "O"
          [.wire 0 0, .wire 0 1]).setDirection "O" .output,
      { name := "ff", type := "DFF" : Cell }.setPort "C" [.wire 1 0]] }
  tags := { clocked := ["DFF"] }
  replaced := [(0, 2), (1, 3)]

def mixedScene : Scene :=
  ⟨{ buffer := some ⟨"BUFG", "O", "I"⟩ }, .ofDesign ⟨[]⟩, false, ⟨[]⟩, ⟨[], []⟩, [], []⟩

/-- The bus is found where it is whole, twice in a row, and not where a part of it stands alone. -/
theorem restoration_exact_mixedLoads :
    Restoration mixedScene mixedLoads (mixedLoads.restoreLoads mixedScene) ∧
    ((mixedLoads.restoreLoads mixedScene).module.cell 0).ports.get? "I" = some [.wire 0 1,
      .wire 2 0, .wire 2 1, .wire 2 0, .wire 2 1, .const .one, .wire 3 0, .wire 3 0, .wire 0 0] ∧
    (mixedLoads.restoreLoads mixedScene).stats.restoredPorts = 1 := by
  refine ⟨restoration_exact ?_ ?_ ?_, ?_, ?_⟩
  · decide
  · decide
  · decide
  · cbv
  · cbv

/-! ## Where restoring starts -/

section Visit
variable {e : Scene} {s : Insertion}

/-- A bit that a cell is on, or is moved onto, is a bit of no copy. -/
theorem ne_copy (hs : s.Fresh) {b : Bit}
    (hb : s.module.Owns b ∨ ∃ f, IsFeed s.module (s.inserted e) f ∧ b = .wire f 0)
    {q : WireId × WireId} (hq : q ∈ (s.inserted e).replaced) (i : Nat) : b ≠ .wire q.2 i := by
  rintro rfl
  rcases hb with hb | ⟨f, hf, he⟩
  · exact Module.not_owns ((fitted_inserted hs).replaced q hq).2.1 i hb
  · obtain ⟨rfl, -⟩ := Bit.wire.inj he
    exact hf.not_copy (List.mem_map_of_mem hq)

theorem owns_or_feed_movedBit (hs : s.Fresh) {b : Bit} (k : CellId)
    (hb : s.module.Owns b ∨ ∃ f, IsFeed s.module (s.inserted e) f ∧ b = .wire f 0) :
    s.module.Owns (movedBit e (s.inserted e) k b) ∨
      ∃ f, IsFeed s.module (s.inserted e) f ∧ movedBit e (s.inserted e) k b = .wire f 0 := by
  unfold movedBit
  split
  · rename_i p hp
    split
    · exact hb
    · exact .inr ⟨p.feed, ((fitted_inserted hs).placed _ p (mem_of_placedOn? hp)).isFeed, rfl⟩
  · exact hb

/-- A visit comes to the loads with copies that are as they have to be, and with no cell on any
of them. -/
theorem restorable (hs : s.Fresh) (hm : s.module.WellFormed)
    (ha : e.aliases = .ofConnections s.module.connections) :
    Copied ((s.inserted e).moveDrivers e).renamePorts.module (s.inserted e).replaced ∧
    ∀ c ∈ ((s.inserted e).moveDrivers e).renamePorts.module.cells, ∀ p ∈ c.ports.entries,
      Uncopied (s.inserted e).replaced p.2 := by
  rw [renamePorts_moveDrivers]
  refine ⟨⟨widths_renamed hs, (exchange_inserted hs).apart⟩, fun c hc p hp q hq i hmem => ?_⟩
  obtain ⟨k, hk, rfl⟩ := List.mem_mapIdx.mp hc
  obtain ⟨⟨port, signal⟩, hentry, rfl⟩ := List.mem_map.mp hp
  have hpin : ∀ b ∈ signal, s.module.Owns b ∨
      ∃ f, IsFeed s.module (s.inserted e) f ∧ b = .wire f 0 := by
    intro b hb
    obtain ⟨j, hj⟩ := List.mem_iff_getElem?.mp hb
    have hbit : Survey.portBit? ((s.inserted e).module.cell k) port j = some b := by
      rw [Module.cell_eq_getElem hk]
      exact Option.bind_eq_some_iff.mpr ⟨signal, OrderedTable.get?_of_mem hentry, hj⟩
    exact owns_or_feed hs hm ha hk hbit
  dsimp only at hmem
  split at hmem
  · obtain ⟨b, hb, he⟩ := List.mem_map.mp hmem
    exact ne_copy hs (owns_or_feed_movedBit hs k (hpin b hb)) hq i he
  · exact ne_copy hs (hpin _ hmem) hq i rfl

/-- What a visit leaves is the module with its drivers moved and its ports renamed, with its loads
restored. -/
theorem restoration_complete (hs : s.Fresh) (hm : s.module.WellFormed)
    (ha : e.aliases = .ofConnections s.module.connections) (hclocked : s.tags.clocked ≠ []) :
    Restoration e ((s.inserted e).moveDrivers e).renamePorts (s.complete e) := by
  obtain ⟨hcopied, hfree⟩ := restorable hs hm ha
  have hclocked' : ((s.inserted e).moveDrivers e).renamePorts.tags.clocked ≠ [] := by
    rw [show ((s.inserted e).moveDrivers e).renamePorts.tags = (s.inserted e).tags from rfl,
      tags_inserted.2]
    exact hclocked
  rw [complete_eq]
  exact restoration_restoreLoads hclocked' hcopied hfree

/-- This is so in every visit of a run that finds some type on a clock path. -/
theorem restoration_visit {o : Options} {d : Design} {p : Progress} {m : Module}
    (hm : m.WellFormed) (hclocked : (entryIn o d p m).tags.clocked ≠ []) :
    Restoration (sceneIn o d p m) (((entryIn o d p m).inserted (sceneIn o d p m)).moveDrivers
      (sceneIn o d p m)).renamePorts (exitIn o d p m) :=
  restoration_complete (fresh_entry hm.namesUnique) hm rfl hclocked

end Visit

end ClockNet.Buffering.Insertion

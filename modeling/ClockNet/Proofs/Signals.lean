import ClockNet.Proofs.Chunks
import ClockNet.Proofs.Lines
import ClockNet.Proofs.Naming
import ClockNet.Rtlil.Parser

/-! # Values and signals read back

Reading takes the tokens of a value, or of a signal, off the front of a text and gives the value or
the signal, bit for bit (`value_valueToken`, `signal_signalGroups`). A signal that is all of a wire
is written as the name alone, so what stands behind it must not begin with a bracket. -/

namespace ClockNet

/-- The wires of a module can be told apart by their names, and their bits by their indices. -/
structure Module.Indexed (m : Module) : Prop where
  names : (m.wires.map (·.name)).Nodup
  numbered : ∀ w ∈ m.wires, w.Numbered

namespace Rtlil

open Signal (IsChunk)

section
variable (lastLine line : Nat)

/-! ## Values -/

theorem value_valueToken (v : Value) (ts : List Located) :
    value lastLine (⟨valueToken v, line⟩ :: ts) = .ok (v, ts) := by
  cases v with
  | text s => rfl
  | const c =>
    cases hn : c.toNat? with
    | none => simp [valueToken, hn, value]
    | some n =>
      by_cases hsmall : c.length = 32 ∧ n < 0x80000000
      · have hword : ((n : Int) % unsignedLimit).toNat = n := by
          unfold unsignedLimit
          omega
        have hback : Const.ofInt n 32 = c := by
          rw [Const.ofInt, hword, ← hsmall.1, Const.ofNat_toNat? hn]
        simp [valueToken, hn, hsmall, value, Value.ofInt, hback]
      · simp [valueToken, hn, hsmall, value]

theorem binding_valueToken (name : String) (v : Value) (ts : List Located) :
    binding lastLine (⟨.name name, line⟩ :: ⟨valueToken v, line⟩ :: ts) = .ok ((name, v), ts) := by
  simp [binding, identifier, value_valueToken, bind, Except.bind]

/-! ## Parts of wires -/

/-- What follows a signal does not begin with an index. -/
def Apart (ts : List Located) : Prop := ∀ t ∈ ts.head?, t.token ≠ .mark '['

theorem apart_cons {t : Located} {ts : List Located} :
    Apart (t :: ts) ↔ t.token ≠ .mark '[' := by simp [Apart]

theorem wireSlice_of_apart {ts : List Located} (h : Apart ts) (id : WireId) (w : Wire) :
    wireSlice lastLine id w ts = .ok (.ofWire id w.width, ts) := by
  unfold wireSlice
  split
  · exact absurd rfl (apart_cons.mp h)
  · rfl

/-- The part of a wire that is written is the part that is read. -/
theorem wireSlice_sliceTokens {w : Wire} (hw : w.Numbered) (id : WireId) {low count : Nat}
    (hfit : low + count < w.width) {ts : List Located} (hts : Apart ts) :
    wireSlice lastLine id w (locate line (sliceTokens w low (count + 1)).flatten ++ ts) =
      .ok ((List.range' low (count + 1)).map (Bit.wire id), ts) := by
  have hlow := hw.placeOf_indexAt (i := low) (by omega)
  have hhigh := hw.placeOf_indexAt (i := low + count) hfit
  have hlast : low + (count + 1) - 1 = low + count := by omega
  unfold sliceTokens
  split
  · rename_i hall
    obtain rfl : low = 0 := by omega
    rw [List.flatten_nil, locate_nil, List.nil_append, wireSlice_of_apart lastLine hts,
      Signal.ofWire, ← hall, List.range_eq_range']
  split
  · rename_i hone
    obtain rfl : count = 0 := by omega
    simp [wireSlice, integer, lastIndex, mark, hlow, Signal.ofPlaces, bind, Except.bind]
  · have hcount : low + count + 1 - low = count + 1 := by omega
    simp [wireSlice, integer, lastIndex, mark, hlast, hlow, hhigh, Signal.ofPlaces, bind,
      Except.bind, hcount]

/-! ## Chunks -/

variable {m : Module}

theorem chunk_chunkGroups (hm : m.Indexed) {s : Signal} (hs : IsChunk s)
    (hbits : ∀ b ∈ s, m.HasBit b) {ts : List Located} (hts : Apart ts) :
    chunk lastLine m (locate line (chunkGroups m s).flatten ++ ts) = .ok (s, ts) := by
  cases hs with
  | consts t c =>
    have hconst : (Signal.ofConst (t :: c)).filterMap Bit.const? = t :: c := by
      simp [Signal.ofConst, List.filterMap_map, Function.comp_def, Bit.const?]
    have hgroups : chunkGroups m (Signal.ofConst (t :: c)) = [[.const (t :: c)]] :=
      congrArg (fun bits => [[Token.const bits]]) hconst
    rw [hgroups]
    rfl
  | places id low count =>
    have hlast : low + count < (m.wire id).width := by
      refine hbits (.wire id (low + count)) (List.mem_map_of_mem ?_)
      rw [List.mem_range'_1]
      omega
    have hid := Module.lt_of_place hlast
    have hslice := wireSlice_sliceTokens lastLine line (hm.numbered _ (Module.wire_mem hid)) id
      hlast hts
    simp only [List.range'_succ, List.map_cons, chunkGroups, List.length_cons, List.length_map,
      List.length_range', List.flatten_cons, locate_cons, List.cons_append,
      chunk, Module.findWire_name hm.names hid] at hslice ⊢
    exact hslice

theorem apart_chunkGroups {s : Signal} (hs : IsChunk s) (ts : List Located) :
    Apart (locate line (chunkGroups m s).flatten ++ ts) := by
  cases hs with
  | consts t c => exact apart_cons.mpr (by simp)
  | places id low count =>
    rw [List.range'_succ, List.map_cons]
    exact apart_cons.mpr (by simp)

/-! ## Signals -/

theorem signalWithin_chunk {opened : List (List Signal)} {s : Signal} {ts rest : List Located}
    (h : chunk lastLine m ts = .ok (s, rest)) : signalWithin lastLine m opened ts =
      match opened with
      | [] => .ok (s, rest)
      | parts :: outer => signalWithin lastLine m ((s :: parts) :: outer) rest := by
  rw [signalWithin.eq_def lastLine m opened ts]
  split
  · cases h
  · cases h
  · rw [Text.andThen_eq_bind, h]
    rfl

theorem signalWithin_chunks (hm : m.Indexed) (chunks : List Signal)
    (hc : ∀ s ∈ chunks, IsChunk s) (hbits : ∀ s ∈ chunks, ∀ b ∈ s, m.HasBit b)
    (parts : List Signal) (ts : List Located) :
    signalWithin lastLine m [parts]
      (locate line (chunks.flatMap (chunkGroups m)).flatten ++ ⟨.mark '\x7d', line⟩ :: ts) =
      .ok ((chunks.reverse ++ parts).flatten, ts) := by
  induction chunks generalizing parts with
  | nil =>
    rw [List.flatMap_nil, List.flatten_nil, locate_nil, List.nil_append, signalWithin]
    rfl
  | cons s chunks ih =>
    have hnext : Apart (locate line (chunks.flatMap (chunkGroups m)).flatten ++
        ⟨.mark '\x7d', line⟩ :: ts) := by
      cases chunks with
      | nil => exact apart_cons.mpr (by simp)
      | cons s' chunks =>
        rw [List.flatMap_cons, List.flatten_append, locate_append, List.append_assoc]
        exact apart_chunkGroups line (hc s' (by simp)) _
    rw [List.flatMap_cons, List.flatten_append, locate_append, List.append_assoc,
      signalWithin_chunk lastLine (chunk_chunkGroups lastLine line hm (hc s List.mem_cons_self)
        (hbits s List.mem_cons_self) hnext)]
    dsimp only
    rw [ih (fun s hs => hc s (List.mem_cons_of_mem _ hs))
      (fun s hs => hbits s (List.mem_cons_of_mem _ hs)), List.reverse_cons, List.append_assoc,
      List.singleton_append]

theorem signal_signalGroups (hm : m.Indexed) {s : Signal} (hbits : ∀ b ∈ s, m.HasBit b)
    {ts : List Located} (hts : Apart ts) :
    signal lastLine m (locate line (signalGroups m s).flatten ++ ts) = .ok (s, ts) := by
  have hchunk : ∀ c ∈ s.chunks, IsChunk c := fun c hc => Signal.isChunk_of_mem_chunks hc
  have hown : ∀ c ∈ s.chunks, ∀ b ∈ c, m.HasBit b := fun c hc b hb =>
    hbits b (Signal.mem_of_mem_chunks hc hb)
  have hwhole := s.flatten_chunks
  unfold signal signalGroups
  split
  · rename_i c hone
    rw [hone] at hchunk hown hwhole
    rw [signalWithin_chunk lastLine (chunk_chunkGroups lastLine line hm
      (hchunk c List.mem_cons_self) (hown c List.mem_cons_self) hts)]
    rw [List.flatten_singleton] at hwhole
    rw [hwhole]
  · have hopen : ∀ rest, signalWithin lastLine m [] (⟨.mark '\x7b', line⟩ :: rest) =
        signalWithin lastLine m [[]] rest := by
      intro rest
      rw [signalWithin]
    have hparts := signalWithin_chunks lastLine line hm s.chunks.reverse
      (fun c hc => hchunk c (List.mem_reverse.mp hc))
      (fun c hc => hown c (List.mem_reverse.mp hc)) [] ts
    rw [List.reverse_reverse, List.append_nil, hwhole] at hparts
    simp only [List.flatten_append, List.flatten_cons, List.flatten_nil, locate_append,
      locate_cons, locate_nil, List.append_assoc, List.cons_append, List.nil_append, hopen, hparts]

theorem apart_signalGroups (s : Signal) (ts : List Located) :
    Apart (locate line (signalGroups m s).flatten ++ ts) := by
  unfold signalGroups
  split
  · rename_i c hone
    exact apart_chunkGroups line (Signal.isChunk_of_mem_chunks (hone ▸ List.mem_cons_self)) ts
  · exact apart_cons.mpr (by simp)

end

/-! ## Legible groups -/

section
variable {m : Module}

/-- The tokens of a part of a wire can touch each other. -/
theorem groupLegible_slice {w : Wire} (hw : w.Numbered) {low count : Nat}
    (hfit : low + count < w.width) : ∀ g ∈ sliceTokens w low (count + 1), GroupLegible g := by
  have hlow := hw.natAbs_indexAt (i := low) (by omega)
  have hhigh := hw.natAbs_indexAt (i := low + count) hfit
  have hlast : low + (count + 1) - 1 = low + count := by omega
  have hcolon : ∀ i, Token.Touches (.int i) (.mark ':') := fun i => touches_mark i (by decide)
  have hclose : ∀ i, Token.Touches (.int i) (.mark ']') := fun i => touches_mark i (by decide)
  intro g hg
  unfold sliceTokens at hg
  split at hg
  · cases hg
  split at hg
  · obtain rfl := List.mem_singleton.mp hg
    refine ⟨?_, ?_⟩
    · simp [Token.Legible, marks, hlow]
    · simp [List.isChain_cons_cons, touches_of_mark, hclose]
  · obtain rfl := List.mem_singleton.mp hg
    refine ⟨?_, ?_⟩
    · simp [Token.Legible, marks, hlow, hhigh, hlast]
    · simp [List.isChain_cons_cons, touches_of_mark, hcolon, hclose]

theorem groupLegible_chunk (hm : m.Indexed) (hnames : ∀ w ∈ m.wires, IsName w.name) {s : Signal}
    (hs : IsChunk s) (hbits : ∀ b ∈ s, m.HasBit b) (hlen : s.length < signedLimit) :
    ∀ g ∈ chunkGroups m s, GroupLegible g := by
  intro g hg
  cases hs with
  | consts t c =>
    obtain rfl := List.mem_singleton.mp hg
    refine groupLegible_single (Nat.lt_of_le_of_lt ?_ hlen)
    exact List.length_filterMap_le _ _
  | places id low count =>
    have hlast : low + count < (m.wire id).width := by
      refine hbits (.wire id (low + count)) (List.mem_map_of_mem ?_)
      rw [List.mem_range'_1]
      omega
    have hwire := Module.wire_mem (Module.lt_of_place hlast)
    simp only [List.range'_succ, List.map_cons, chunkGroups, List.length_cons, List.length_map,
      List.length_range', List.mem_cons] at hg
    rcases hg with rfl | hg
    · exact groupLegible_single (hnames _ hwire)
    · exact groupLegible_slice (hm.numbered _ hwire) hlast g hg

theorem groupLegible_signal (hm : m.Indexed) (hnames : ∀ w ∈ m.wires, IsName w.name) {s : Signal}
    (hbits : ∀ b ∈ s, m.HasBit b) (hlen : s.length < signedLimit) :
    ∀ g ∈ signalGroups m s, GroupLegible g := by
  have hchunk : ∀ c ∈ s.chunks, ∀ g ∈ chunkGroups m c, GroupLegible g := by
    intro c hc
    refine groupLegible_chunk hm hnames (Signal.isChunk_of_mem_chunks hc)
      (fun b hb => hbits b (Signal.mem_of_mem_chunks hc hb)) (Nat.lt_of_le_of_lt ?_ hlen)
    have hsub := List.sublist_flatten_of_mem hc
    rw [Signal.flatten_chunks] at hsub
    exact hsub.length_le
  intro g hg
  unfold signalGroups at hg
  split at hg
  · rename_i c hone
    exact hchunk c (hone ▸ List.mem_cons_self) g hg
  · simp only [List.mem_append, List.mem_singleton, List.mem_flatMap, List.mem_reverse] at hg
    rcases hg with (rfl | ⟨c, hc, hg⟩) | rfl
    · exact groupLegible_single (by simp [Token.Legible, marks])
    · exact hchunk c hc g hg
    · exact groupLegible_single (by simp [Token.Legible, marks])

end

end Rtlil

end ClockNet

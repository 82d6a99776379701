import ClockNet.Proofs.Chunks

/-! # Chunks are the maximal runs

A signal is cut bit by bit: a bit goes to the chunk before it if it goes on from the last bit of
that one, and begins a new chunk otherwise (`foldl_appendBit`). The chunks are runs of constants or
of consecutive places of a wire, none of them goes on in the next one, and no other parts of the
signal are like this (`maximalRuns_iff`). -/

namespace ClockNet.Signal

variable {s : Signal} {parts : List Signal} {b c : Bit}

/-! ## Runs that cannot be extended -/

/-- The second bit goes on from the first one: both are constants, or they are consecutive bits of
one wire. -/
inductive GoesOn : Bit → Bit → Prop where
  | consts (t u : Trit) : GoesOn (.const t) (.const u)
  | next (id : WireId) (place : Nat) : GoesOn (.wire id place) (.wire id (place + 1))

theorem continues_iff : b.continues c = true ↔ GoesOn b c := by
  constructor
  · intro h
    cases b with
    | const t =>
      cases c with
      | const u => exact .consts t u
      | wire id place => cases h
    | wire id place =>
      cases c with
      | const u => cases h
      | wire id' place' =>
        simp only [Bit.continues, Bool.and_eq_true, beq_iff_eq] at h
        obtain ⟨rfl, rfl⟩ := h
        exact .next id place
  · intro h
    cases h with
    | consts t u => rfl
    | next id place => simp [Bit.continues]

/-- Parts of a signal, in order, that are runs and as long as they can be. -/
structure MaximalRuns (s : Signal) (parts : List Signal) : Prop where
  flatten : parts.flatten = s
  runs : ∀ part ∈ parts, IsChunk part
  maximal : ∀ i part next, parts[i]? = some part → parts[i + 1]? = some next →
    ∀ b ∈ part.getLast?, ∀ c ∈ next.head?, ¬ GoesOn b c

/-- Parts that are not empty stand apart where no bit at a seam goes on from the one before. -/
theorem isChain_apart_iff (hn : [] ∉ parts) : parts.IsChain Apart ↔
    ∀ i part next, parts[i]? = some part → parts[i + 1]? = some next →
      ∀ b ∈ part.getLast?, ∀ c ∈ next.head?, ¬ GoesOn b c := by
  rw [List.isChain_iff_getElem]
  constructor
  · intro h i part next hpart hnext b hb c hc hon
    obtain ⟨hi, rfl⟩ := List.getElem?_eq_some_iff.mp hnext
    obtain ⟨_, rfl⟩ := List.getElem?_eq_some_iff.mp hpart
    obtain ⟨hlast, hhead, hgap⟩ := h i hi
    have hb : parts[i].getLast hlast = b := Option.some.inj
      ((List.getLast?_eq_some_getLast hlast).symm.trans hb)
    have hc : parts[i + 1].head hhead = c := Option.some.inj
      ((List.head?_eq_some_head hhead).symm.trans hc)
    rw [hb, hc, continues_iff.mpr hon] at hgap
    cases hgap
  · intro h i hi
    have hpart : parts[i] ≠ [] := fun he => hn (he ▸ List.getElem_mem _)
    have hnext : parts[i + 1] ≠ [] := fun he => hn (he ▸ List.getElem_mem _)
    refine ⟨hpart, hnext, Bool.eq_false_iff.mpr fun hon => ?_⟩
    exact h i _ _ (List.getElem?_eq_getElem _) (List.getElem?_eq_getElem _) _
      (List.getLast?_eq_some_getLast hpart) _ (List.head?_eq_some_head hnext)
      (continues_iff.mp hon)

theorem MaximalRuns.of_isChain (hflatten : parts.flatten = s)
    (hruns : ∀ part ∈ parts, IsChunk part) (hapart : parts.IsChain Apart) : MaximalRuns s parts :=
  ⟨hflatten, hruns, (isChain_apart_iff fun h => (hruns [] h).ne_nil rfl).mp hapart⟩

theorem MaximalRuns.isChain (h : MaximalRuns s parts) : parts.IsChain Apart :=
  (isChain_apart_iff fun hn => (h.runs [] hn).ne_nil rfl).mpr h.maximal

theorem maximalRuns_iff : MaximalRuns s parts ↔ parts = s.chunks := by
  constructor
  · intro h
    have hapart := h.isChain
    obtain ⟨rfl, hruns, -⟩ := h
    exact (chunks_flatten (fun hn => (hruns [] hn).ne_nil rfl)
      (fun part hp => (hruns part hp).isChain) hapart).symm
  · rintro rfl
    exact .of_isChain (flatten_chunks s) (fun _ h => isChunk_of_mem_chunks h)
      (isChain_apart_chunks s)

/-! ## Bit by bit -/

theorem IsChunk.concat {chunk : Signal} (h : IsChunk chunk) (hb : b ∈ chunk.getLast?)
    (hon : GoesOn b c) : IsChunk (chunk ++ [c]) := by
  cases h with
  | consts t bits =>
    unfold ofConst at hb ⊢
    obtain ⟨last, -, hlast⟩ := List.mem_map.mp (List.mem_of_mem_getLast? hb)
    subst hlast
    cases hon with
    | consts _ u => simpa [ofConst] using IsChunk.consts t (bits ++ [u])
  | places id low count =>
    have hlast : b = .wire id (low + count) := by
      rw [List.range'_concat] at hb
      simpa using hb.symm
    subst hlast
    cases hon with
    | next _ _ =>
      have hgrown := IsChunk.places id low (count + 1)
      rw [List.range'_concat] at hgrown
      simpa [Nat.add_assoc] using hgrown

theorem MaximalRuns.grow {chunk : Signal} (h : MaximalRuns s (parts ++ [chunk]))
    (hb : b ∈ chunk.getLast?) (hon : GoesOn b c) :
    MaximalRuns (s ++ [c]) (parts ++ [chunk ++ [c]]) := by
  have hapart := h.isChain
  obtain ⟨rfl, hruns, -⟩ := h
  have hchunk : IsChunk chunk := hruns chunk (by simp)
  rw [List.isChain_append] at hapart
  obtain ⟨hparts, -, hseam⟩ := hapart
  refine .of_isChain (by simp) (fun part hp => ?_) ?_
  · rcases List.mem_append.mp hp with hp | hp
    · exact hruns part (List.mem_append_left _ hp)
    · exact List.mem_singleton.mp hp ▸ hchunk.concat hb hon
  · -- the seam before it is at its other end
    refine List.isChain_append.mpr
      ⟨hparts, List.isChain_singleton _, fun before hbefore next hn => ?_⟩
    obtain rfl := Option.mem_some_iff.mp hn
    obtain ⟨hne, hne', hgap⟩ := hseam before hbefore chunk rfl
    exact ⟨hne, by simp, by rwa [List.head_append_of_ne_nil hne']⟩

theorem MaximalRuns.begin (h : MaximalRuns s parts)
    (hgap : ∀ chunk ∈ parts.getLast?, ∀ b ∈ chunk.getLast?, ¬ GoesOn b c) :
    MaximalRuns (s ++ [c]) (parts ++ [[c]]) := by
  have hapart := h.isChain
  obtain ⟨rfl, hruns, -⟩ := h
  refine .of_isChain (by simp) (fun part hp => ?_) ?_
  · rcases List.mem_append.mp hp with hp | hp
    · exact hruns part hp
    · exact List.mem_singleton.mp hp ▸ .single c
  · refine List.isChain_append.mpr
      ⟨hapart, List.isChain_singleton _, fun chunk hchunk next hn => ?_⟩
    obtain rfl := Option.mem_some_iff.mp hn
    have hne := (hruns chunk (List.mem_of_mem_getLast? hchunk)).ne_nil
    refine ⟨hne, List.cons_ne_nil _ _, Bool.eq_false_iff.mpr fun hon => ?_⟩
    exact hgap chunk hchunk _ (List.getLast?_eq_some_getLast hne) (continues_iff.mp hon)

/-- One more bit leaves the parts maximal, of a signal that is longer by this bit. -/
theorem MaximalRuns.appendBit (h : MaximalRuns s parts) :
    MaximalRuns (s ++ [c]) (appendBit parts c) := by
  unfold Signal.appendBit
  split
  · rename_i chunk hlast
    split
    · rename_i hon
      obtain ⟨init, rfl⟩ := List.getLast?_eq_some_iff.mp hlast
      obtain ⟨b, hb, hon⟩ := (Option.any_eq_true _ _).mp hon
      rw [List.dropLast_concat]
      exact h.grow hb (continues_iff.mp hon)
    · rename_i hgap
      refine h.begin fun chunk' hchunk b hb hon => hgap ?_
      obtain rfl := Option.some.inj (hlast.symm.trans hchunk)
      exact (Option.any_eq_true _ _).mpr ⟨b, hb, continues_iff.mpr hon⟩
  · rename_i hnone
    obtain rfl := List.getLast?_eq_none_iff.mp hnone
    exact h.begin fun chunk hchunk => nomatch hchunk

theorem foldl_appendBit (s : Signal) : s.foldl appendBit [] = s.chunks := by
  induction s using List.reverseRecOn with
  | nil => rfl
  | append_singleton s b ih =>
    rw [List.foldl_append, ih]
    exact maximalRuns_iff.mp (maximalRuns_iff.mpr rfl).appendBit

/-- Whatever a signal is made of, cutting it bit by bit gives parts that are maximal runs, and there
is no other way to cut it into such parts. -/
theorem chunks_exact (s : Signal) : s.foldl appendBit [] = s.chunks ∧
    ∀ parts, MaximalRuns s parts ↔ parts = s.chunks :=
  ⟨foldl_appendBit s, fun _ => maximalRuns_iff⟩

/-- Runs upwards only: bits that repeat or descend stand alone, as does a bit of another wire. -/
example : chunks [.wire 0 0, .wire 0 1, .wire 1 0, .wire 0 3, .wire 0 3, .wire 0 2, .const .zero,
    .const .unknown] = [[.wire 0 0, .wire 0 1], [.wire 1 0], [.wire 0 3], [.wire 0 3], [.wire 0 2],
      [.const .zero, .const .unknown]] := by decide

end ClockNet.Signal

import ClockNet.Proofs.Refusals

/-! # Where signals are refused

Single tokens, slices, signals and connections, each followed to the token at which it is refused. A
signal in braces is followed by induction on the number of tokens. It has a last token of its own,
which is the one at which a connection of different widths is refused (`readsAt_connection`): what
comes before it lacks a token, and what comes behind changes nothing, unless it makes a slice of the
wire that was named last. -/

namespace ClockNet.Rtlil

variable {α : Type} {lastLine : Nat} {ts rest : List Located} {t : Located}

/-! ## Single tokens -/

theorem readsAt_identifier (ts : List Located) : ReadsAt identifier ts := by
  refine .single (fun _ => rfl) (fun _ => Fault.noConfusion) (fun t => ?_) ts
  obtain ⟨token, line⟩ := t
  cases token with
  | name n => exact .inl ⟨n, fun _ _ => rfl⟩
  | _ => exact .inr ⟨.expected .name _, rfl, fun _ _ => rfl⟩

theorem readsAt_integer (ts : List Located) : ReadsAt integer ts := by
  refine .single (fun _ => rfl) (fun _ => Fault.noConfusion) (fun t => ?_) ts
  obtain ⟨token, line⟩ := t
  cases token with
  | int i => exact .inl ⟨i, fun _ _ => rfl⟩
  | _ => exact .inr ⟨.expected .int _, rfl, fun _ _ => rfl⟩

theorem readsAt_value (ts : List Located) : ReadsAt value ts := by
  refine .single (fun _ => rfl) (fun _ => Fault.noConfusion) (fun t => ?_) ts
  obtain ⟨token, line⟩ := t
  cases token with
  | const c => exact .inl ⟨.const c, fun _ _ => rfl⟩
  | int i => exact .inl ⟨.ofInt i, fun _ _ => rfl⟩
  | text s => exact .inl ⟨.text s, fun _ _ => rfl⟩
  | _ => exact .inr ⟨.expected .value _, rfl, fun _ _ => rfl⟩

theorem readsAt_natural (ts : List Located) : ReadsAt natural ts := by
  refine .single (fun _ => rfl) (fun _ => Fault.noConfusion) (fun t => ?_) ts
  obtain ⟨token, line⟩ := t
  cases token with
  | int i =>
    by_cases hi : i < 0
    · exact .inr ⟨.negative i, ⟨rfl, hi⟩, fun _ _ => if_pos hi⟩
    · exact .inl ⟨i.toNat, fun _ _ => if_neg hi⟩
  | _ => exact .inr ⟨.expected .int _, rfl, fun _ _ => rfl⟩

theorem readsAt_binding (ts : List Located) : ReadsAt binding ts := by
  refine .andThen_needed (k := fun name => Step.andThen value fun v _ ts => .ok ((name, v), ts))
    (readsAt_identifier ts) (fun _ name rest _ => ?_) fun _ _ => rfl
  refine .andThen (readsAt_value rest) (fun _ _ _ _ => .pure fun _ _ => rfl) ?_
  exact fun _ _ _ hne _ _ => ⟨rfl, hne⟩

/-- A name may be refused for itself, after it has been read. -/
theorem readsAt_named {k : String → Nat → Step α} (h : ∀ n rest, rest.length < ts.length →
      (∃ fault, fault.EndsWith (.name n) ∧ ∀ line lastLine rest,
        k n lastLine rest = .error ⟨fault.lineAt lastLine ⟨.name n, line⟩ rest, fault⟩) ∨
      ReadsAt (k n) rest) :
    ReadsAt (Step.andThen identifier k) ts := by
  cases ts with
  | nil => exact .nil (fun _ => rfl) fun _ => Fault.noConfusion
  | cons t ts =>
    obtain ⟨token, line⟩ := t
    cases token with
    | name n =>
      rcases h n ts (Nat.lt_succ_self _) with ⟨fault, hends, hfault⟩ | hk
      · exact .refused_needed fault (hfault line) hends fun _ => rfl
      · exact .take (g := k n) (fun _ _ => rfl) hk
    | _ => exact .refused_needed (.expected .name _) (fun _ _ => rfl) rfl fun _ => rfl

/-! ## Slices -/

/-- The end of a slice, where it is checked. -/
def sliceEnd (id : WireId) (w : Wire) (first last : Int) : Nat → Step Signal :=
  fun lastLine ts => do
    let ts ← mark lastLine ']' ts
    let fault := Fault.invalidSlice first last w.name
    match w.placeOf first, w.placeOf last with
    | some high, some low =>
      if low ≤ high then .ok (.ofPlaces id low high, ts) else fail lastLine ts fault
    | _, _ => fail lastLine ts fault

/-- A slice after its opening bracket. -/
def sliceBody (id : WireId) (w : Wire) : Nat → Step Signal :=
  Step.andThen integer fun first =>
    Step.andThen (lastIndex · first) fun last => sliceEnd id w first last

section
variable (id : WireId) (w : Wire) (first last : Int)

theorem sliceEnd_close : (∃ s, ∀ line lastLine rest,
      sliceEnd id w first last lastLine (⟨.mark ']', line⟩ :: rest) = .ok (s, rest)) ∨
    ∀ line lastLine rest, sliceEnd id w first last lastLine (⟨.mark ']', line⟩ :: rest) =
      fail lastLine rest (.invalidSlice first last w.name) := by
  have hmark : ∀ line lastLine rest,
      mark lastLine ']' (⟨.mark ']', line⟩ :: rest) = .ok rest := fun _ _ _ => rfl
  unfold sliceEnd
  simp only [hmark]
  cases w.placeOf first with
  | none => exact .inr fun _ _ _ => rfl
  | some high =>
    cases w.placeOf last with
    | none => exact .inr fun _ _ _ => rfl
    | some low =>
      by_cases h : low ≤ high
      · exact .inl ⟨.ofPlaces id low high, fun _ _ _ => if_pos h⟩
      · exact .inr fun _ _ _ => if_neg h

theorem sliceEnd_unclosed (h : t.token ≠ .mark ']') (lastLine : Nat) (rest : List Located) :
    sliceEnd id w first last lastLine (t :: rest) = .error ⟨t.line, .expectedMark ']'⟩ := by
  have hmark : mark lastLine ']' (t :: rest) = fail lastLine (t :: rest) (.expectedMark ']') := by
    unfold mark
    split
    · rename_i heq
      obtain ⟨rfl, rfl⟩ := List.cons.inj heq
      exact if_neg fun hd => h (congrArg Token.mark hd)
    · rfl
  unfold sliceEnd
  rw [hmark]
  rfl

theorem spares_sliceEnd (lastLine : Nat) :
    Spares (.expectedMark ']') (sliceEnd id w first last lastLine [closing]) := by
  unfold closing
  rcases sliceEnd_close id w first last with ⟨s, h⟩ | h
  · rw [h]
    exact ⟨rfl, Fault.noConfusion⟩
  · rw [h]
    exact Fault.noConfusion

theorem readsAt_sliceEnd (ts : List Located) : ReadsAt (sliceEnd id w first last) ts := by
  have hclose : ∃ rest, Idle rest ∧
      ∀ lastLine, Spares (.expectedMark ']') (sliceEnd id w first last lastLine rest) :=
    ⟨[closing], .inr rfl, spares_sliceEnd id w first last⟩
  cases ts with
  | nil =>
    refine ⟨fun lastLine x rest hx => ?_, fun lastLine e he => ?_⟩
    · cases hx
    · cases he
      exact .inl ⟨rfl, .inr ⟨']', rfl⟩, hclose⟩
  | cons t ts =>
    by_cases ht : t.token = .mark ']'
    · obtain ⟨token, line⟩ := t
      cases ht
      rcases sliceEnd_close id w first last with ⟨s, h⟩ | h
      · exact .take (h line) (.pure fun _ _ => rfl)
      · exact .refused (.invalidSlice first last w.name) (h line) rfl
          ⟨[], idle_nil, fun _ => Fault.noConfusion⟩
    · exact .refused (.expectedMark ']') (sliceEnd_unclosed id w first last ht) ht hclose

theorem signalEnds_sliceEnd (ts : List Located) : SignalEnds (sliceEnd id w first last) ts := by
  cases ts with
  | nil => exact .of_error fun _ => ⟨_, rfl⟩
  | cons t ts =>
    by_cases ht : t.token = .mark ']'
    · obtain ⟨token, line⟩ := t
      cases ht
      rcases sliceEnd_close id w first last with ⟨s, h⟩ | h
      · exact .last rfl (fun _ => ⟨_, rfl, .inr ⟨']', rfl⟩⟩)
          fun lastLine rest _ => h line lastLine rest
      · exact .of_error fun lastLine => ⟨_, h line lastLine ts⟩
    · exact .of_error fun lastLine => ⟨_, sliceEnd_unclosed id w first last ht lastLine ts⟩

theorem lastIndex_of_not_colon (h : ∀ t ∈ ts.head?, t.token ≠ .mark ':') :
    lastIndex lastLine first ts = .ok (first, ts) := by
  unfold lastIndex
  split
  · exact absurd rfl (h _ rfl)
  · rfl

theorem readsAt_lastIndex (ts : List Located) : ReadsAt (lastIndex · first) ts := by
  have hplain : (∀ t ∈ ts.head?, t.token ≠ .mark ':') → ReadsAt (lastIndex · first) ts := by
    refine fun h => .congr (g := fun _ ts => .ok (first, ts)) (fun lastLine ts' hr => ?_)
      (.pure fun _ _ => rfl)
    exact lastIndex_of_not_colon first (hr.not_begins (p := (· = .mark ':')) h (by decide))
  cases ts with
  | nil => exact hplain fun _ ht => nomatch ht
  | cons t ts =>
    by_cases hcolon : t.token = .mark ':'
    · obtain ⟨token, line⟩ := t
      cases hcolon
      exact .take (fun _ _ => rfl) (readsAt_integer ts)
    · exact hplain fun t' ht' => Option.some.inj ht' ▸ hcolon

/-- Where there is a token, an integer is only refused for being another one. -/
theorem integer_fault {e : ParseError} (h : integer lastLine ts = .error e)
    (hne : e.fault ≠ .endOfInput) : ∃ found, e.fault = .expected .int found := by
  unfold integer at h
  split at h
  · cases h
  · cases h
    exact absurd rfl hne
  · cases h
    exact ⟨_, rfl⟩

theorem lastIndex_fault {e : ParseError} (h : lastIndex lastLine first ts = .error e)
    (hne : e.fault ≠ .endOfInput) : ∃ found, e.fault = .expected .int found := by
  unfold lastIndex at h
  split at h
  · exact integer_fault h hne
  · cases h

theorem sliceEnd_fault {e : ParseError} (h : sliceEnd id w first last lastLine ts = .error e)
    {a b : Nat} : e.fault ≠ .widthMismatch a b := by
  cases ts with
  | nil =>
    cases h
    exact Fault.noConfusion
  | cons t ts =>
    by_cases ht : t.token = .mark ']'
    · obtain ⟨token, line⟩ := t
      cases ht
      rcases sliceEnd_close id w first last with ⟨s, hclose⟩ | hclose
      · rw [hclose] at h
        cases h
      · rw [hclose] at h
        cases h
        exact Fault.noConfusion
    · rw [sliceEnd_unclosed id w first last ht] at h
      cases h
      exact Fault.noConfusion

theorem readsAt_sliceBody (ts : List Located) : ReadsAt (sliceBody id w) ts := by
  refine .andThen (readsAt_integer ts) (fun _ first rest _ => ?_)
    fun _ e he hne first lastLine => ?_
  · refine .andThen (readsAt_lastIndex first rest) (fun _ last rest _ => ?_)
      fun _ e he hne last lastLine => ?_
    · exact readsAt_sliceEnd id w first last rest
    · obtain ⟨found, hfault⟩ := lastIndex_fault first he hne
      rw [hfault]
      exact Fault.noConfusion
  · obtain ⟨found, hfault⟩ := integer_fault he hne
    rw [hfault]
    exact Fault.noConfusion

theorem signalEnds_sliceBody (ts : List Located) : SignalEnds (sliceBody id w) ts :=
  .andThen (readsAt_integer ts).resumes fun _ first rest _ =>
    .andThen (readsAt_lastIndex first rest).resumes fun _ last rest _ =>
      signalEnds_sliceEnd id w first last rest

theorem sliceBody_fault {e : ParseError} (h : sliceBody id w lastLine ts = .error e) {a b : Nat} :
    e.fault ≠ .widthMismatch a b := by
  intro hfault
  rcases of_andThen_error h with h | ⟨first, rest, -, h⟩
  · obtain ⟨found, hint⟩ := integer_fault h (by rw [hfault]; exact Fault.noConfusion)
    exact nomatch hint.symm.trans hfault
  · rcases of_andThen_error h with h | ⟨last, rest, -, h⟩
    · obtain ⟨found, hint⟩ := lastIndex_fault first h (by rw [hfault]; exact Fault.noConfusion)
      exact nomatch hint.symm.trans hfault
    · exact sliceEnd_fault id w first last h hfault

theorem wireSlice_bracket (line lastLine : Nat) (rest : List Located) :
    wireSlice lastLine id w (⟨.mark '[', line⟩ :: rest) = sliceBody id w lastLine rest := rfl

theorem wireSlice_of_not_opens (h : ¬ OpensSlice ts) :
    wireSlice lastLine id w ts = .ok (.ofWire id w.width, ts) := by
  unfold wireSlice
  split
  · exact absurd rfl h
  · rfl

theorem opensSlice_iff : OpensSlice ts ↔ ∃ line rest, ts = ⟨.mark '[', line⟩ :: rest := by
  constructor
  · intro h
    obtain ⟨⟨token, line⟩, hhead, rfl⟩ := Option.map_eq_some_iff.mp h
    obtain ⟨rest, rfl⟩ := List.head?_eq_some_iff.mp hhead
    exact ⟨line, rest, rfl⟩
  · rintro ⟨line, rest, rfl⟩
    rfl

theorem wireSlice_fault {e : ParseError} (h : wireSlice lastLine id w ts = .error e) {a b : Nat} :
    e.fault ≠ .widthMismatch a b := by
  by_cases hopens : OpensSlice ts
  · obtain ⟨line, rest, rfl⟩ := opensSlice_iff.mp hopens
    exact sliceBody_fault id w h
  · rw [wireSlice_of_not_opens id w hopens] at h
    cases h

theorem readsAt_wireSlice (ts : List Located) :
    ReadsAt (fun lastLine => wireSlice lastLine id w) ts := by
  by_cases h : OpensSlice ts
  · obtain ⟨line, rest, rfl⟩ := opensSlice_iff.mp h
    exact .take (wireSlice_bracket id w line) (readsAt_sliceBody id w rest)
  · exact .congr (fun lastLine ts' hr => wireSlice_of_not_opens id w (mt hr.opensSlice h))
      (.pure fun _ _ => rfl)

end

/-! ## Signals -/

section
variable (m : Module)

theorem chunk_of_unknown {n : String} (h : m.findWire n = none) (line lastLine : Nat)
    (rest : List Located) :
    chunk lastLine m (⟨.name n, line⟩ :: rest) = .error ⟨line, .unknownWire n⟩ := by
  simp only [chunk, h]
  rfl

theorem chunk_of_known {n : String} {id : WireId} (h : m.findWire n = some id)
    (line lastLine : Nat) (rest : List Located) :
    chunk lastLine m (⟨.name n, line⟩ :: rest) = wireSlice lastLine id (m.wire id) rest := by
  simp only [chunk, h]

theorem readsAt_chunk (ts : List Located) : ReadsAt (chunk · m) ts := by
  cases ts with
  | nil => exact .nil (fun _ => rfl) fun _ => Fault.noConfusion
  | cons t ts =>
    obtain ⟨token, line⟩ := t
    cases token with
    | const c => exact .take (fun _ _ => rfl) (.pure (x := .ofConst c) fun _ _ => rfl)
    | int i => exact .take (fun _ _ => rfl) (.pure (x := .ofConst (.ofInt i 32)) fun _ _ => rfl)
    | name n =>
      cases hfind : m.findWire n with
      | none =>
        exact .refused_needed (.unknownWire n) (chunk_of_unknown m hfind line) rfl fun _ => rfl
      | some id =>
        exact .take (chunk_of_known m hfind line) (readsAt_wireSlice id (m.wire id) ts)
    | _ => exact .refused_needed (.expected .signal _) (fun _ _ => rfl) rfl fun _ => rfl

theorem signalEnds_chunk (ts : List Located) : SignalEnds (chunk · m) ts := by
  have hnil : ∀ lastLine, ∃ e, chunk lastLine m [] = .error e ∧
      (e.fault = .endOfInput ∨ ∃ c, e.fault = .expectedMark c) :=
    fun _ => ⟨_, rfl, .inl rfl⟩
  cases ts with
  | nil => exact .of_error fun _ => ⟨_, rfl⟩
  | cons t ts =>
    obtain ⟨token, line⟩ := t
    cases token with
    | const c => exact .last rfl hnil fun _ _ _ => rfl
    | int i => exact .last rfl hnil fun _ _ _ => rfl
    | name n =>
      cases hfind : m.findWire n with
      | none =>
        exact .of_error fun lastLine => ⟨_, chunk_of_unknown m hfind line lastLine ts⟩
      | some id =>
        by_cases h : OpensSlice ts
        · obtain ⟨line, rest, rfl⟩ := opensSlice_iff.mp h
          have hslice := signalEnds_sliceBody id (m.wire id) rest
          exact .take (chunk_of_known m hfind _)
            (.take (wireSlice_bracket id (m.wire id) line) hslice)
        · refine .last (x := .ofWire id (m.wire id).width) rfl hnil fun lastLine rest hopens => ?_
          rw [chunk_of_known m hfind, wireSlice_of_not_opens id (m.wire id) (mt hopens h)]
    | _ => exact .of_error fun _ => ⟨_, rfl⟩

/-- How a signal in braces goes on after one of its parts. -/
def afterPart (opened : List (List Signal)) (s : Signal) : Nat → Step Signal :=
  fun lastLine ts => match opened with
  | [] => .ok (s, ts)
  | parts :: rest => signalWithin lastLine m ((s :: parts) :: rest) ts

theorem signalWithin_part {opened : List (List Signal)}
    (h : ∀ t ∈ ts.head?, ¬ (t.token = .mark '\x7b' ∨ t.token = .mark '\x7d')) :
    signalWithin lastLine m opened ts =
      Step.andThen (chunk · m) (afterPart m opened) lastLine ts := by
  rw [signalWithin]
  · rw [Text.andThen_eq_bind]
    unfold Step.andThen afterPart
    cases opened <;> rfl
  · rintro line rest rfl
    exact h _ rfl (.inl rfl)
  · rintro line rest rfl
    exact h _ rfl (.inr rfl)

theorem signalWithin_nil (opened : List (List Signal)) :
    signalWithin lastLine m opened [] = .error ⟨lastLine, .endOfInput⟩ := by
  rw [signalWithin_part m (by simp)]
  rfl

theorem signalWithin_cases (ts : List Located) :
    (∃ line rest, ts = ⟨.mark '\x7b', line⟩ :: rest) ∨
      (∃ line rest, ts = ⟨.mark '\x7d', line⟩ :: rest) ∨
      ∀ t ∈ ts.head?, ¬ (t.token = .mark '\x7b' ∨ t.token = .mark '\x7d') := by
  cases ts with
  | nil => exact .inr (.inr (by simp))
  | cons t rest =>
    obtain ⟨token, line⟩ := t
    by_cases hopen : token = .mark '\x7b'
    · exact .inl ⟨line, rest, by rw [hopen]⟩
    · by_cases hclose : token = .mark '\x7d'
      · exact .inr (.inl ⟨line, rest, by rw [hclose]⟩)
      · refine .inr (.inr fun t ht => ?_)
        cases ht
        exact not_or.mpr ⟨hopen, hclose⟩

section
variable (opened : List (List Signal)) (parts next : List Signal) (line lastLine : Nat)
  (rest : List Located)

theorem signalWithin_open : signalWithin lastLine m opened (⟨.mark '\x7b', line⟩ :: rest) =
    signalWithin lastLine m ([] :: opened) rest := by
  rw [signalWithin]

theorem signalWithin_stray : signalWithin lastLine m [] (⟨.mark '\x7d', line⟩ :: rest) =
    .error ⟨line, .expected .signal (.mark '\x7d')⟩ := by
  rw [signalWithin]
  rfl

theorem signalWithin_last : signalWithin lastLine m [parts] (⟨.mark '\x7d', line⟩ :: rest) =
    .ok (parts.flatten, rest) := by
  rw [signalWithin]

theorem signalWithin_close :
    signalWithin lastLine m (parts :: next :: opened) (⟨.mark '\x7d', line⟩ :: rest) =
      signalWithin lastLine m ((parts.flatten :: next) :: opened) rest := by
  rw [signalWithin]

end

theorem signalEnds_part (opened : List (List Signal))
    (hpart : ∀ t ∈ ts.head?, ¬ (t.token = .mark '\x7b' ∨ t.token = .mark '\x7d'))
    (hnext : ∀ lastLine s rest parts outer, chunk lastLine m ts = .ok (s, rest) →
      SignalEnds (afterPart m (parts :: outer) s) rest ∧
        Refuses (afterPart m (parts :: outer) s) rest) :
    SignalEnds (fun lastLine => signalWithin lastLine m opened) ts ∧
      Refuses (fun lastLine => signalWithin lastLine m opened) ts := by
  have h : ∀ lastLine ts', Resumes ts ts' → signalWithin lastLine m opened ts' =
      Step.andThen (chunk · m) (afterPart m opened) lastLine ts' := fun lastLine ts' hr =>
    signalWithin_part m
      (hr.not_begins (p := fun token => token = .mark '\x7b' ∨ token = .mark '\x7d') hpart
        (by decide))
  cases opened with
  | nil =>
    have hchunk : ∀ lastLine ts', Resumes ts ts' →
        signalWithin lastLine m [] ts' = chunk lastLine m ts' := by
      intro lastLine ts' hr
      rw [h lastLine ts' hr]
      exact bind_pure (chunk lastLine m ts')
    exact ⟨(signalEnds_chunk m ts).congr hchunk, (readsAt_chunk m ts).refuses.congr hchunk⟩
  | cons parts outer =>
    refine ⟨.congr h (.andThen (readsAt_chunk m ts).resumes fun lastLine s rest hs =>
        (hnext lastLine s rest parts outer hs).1),
      .congr h (.andThen (readsAt_chunk m ts) (fun lastLine s rest hs =>
        (hnext lastLine s rest parts outer hs).2) fun _ e _ hne s lastLine => ?_)⟩
    have hnil : afterPart m (parts :: outer) s lastLine [] = .error ⟨lastLine, .endOfInput⟩ :=
      signalWithin_nil m ((s :: parts) :: outer)
    rw [hnil]
    exact hne.symm

/-- A signal ends with its last token, at whatever depth it is read, and is refused at one. -/
theorem signalEnds_signalWithin (opened : List (List Signal)) (ts : List Located) :
    SignalEnds (fun lastLine => signalWithin lastLine m opened) ts ∧
      Refuses (fun lastLine => signalWithin lastLine m opened) ts := by
  induction hn : ts.length using Nat.strongRecOn generalizing opened ts with
  | ind n ih =>
    subst hn
    rcases signalWithin_cases ts with ⟨line, rest, rfl⟩ | ⟨line, rest, rfl⟩ | hpart
    · obtain ⟨hends, hrefuses⟩ := ih _ (Nat.lt_succ_self _) ([] :: opened) rest rfl
      have h := signalWithin_open m opened line
      exact ⟨.take h hends, .take h hrefuses⟩
    · cases opened with
      | nil =>
        have h := signalWithin_stray m line
        refine ⟨.of_error fun lastLine => ⟨_, h lastLine rest⟩, ?_⟩
        exact (ReadsAt.refused_needed (.expected .signal (.mark '\x7d')) h rfl
          fun lastLine => signalWithin_nil m []).refuses
      | cons parts outer =>
        cases outer with
        | nil =>
          have h := signalWithin_last m parts line
          refine ⟨.last rfl (fun _ => ⟨_, signalWithin_nil m [parts], .inl rfl⟩)
            fun lastLine rest _ => h lastLine rest, ?_⟩
          exact (ReadsAt.take (g := fun _ ts => .ok (parts.flatten, ts)) h
            (.pure fun _ _ => rfl)).refuses
        | cons next outer =>
          obtain ⟨hends, hrefuses⟩ :=
            ih _ (Nat.lt_succ_self _) ((parts.flatten :: next) :: outer) rest rfl
          have h := signalWithin_close m outer parts next line
          exact ⟨.take h hends, .take h hrefuses⟩
    · exact signalEnds_part m opened hpart fun lastLine s rest parts outer hs =>
        ih _ (chunk_length lastLine hs) ((s :: parts) :: outer) rest rfl

theorem signalEnds_signal (ts : List Located) : SignalEnds (signal · m) ts :=
  (signalEnds_signalWithin m [] ts).1

theorem readsAt_signal (ts : List Located) : ReadsAt (signal · m) ts :=
  ⟨(signalEnds_signal m ts).resumable, (signalEnds_signalWithin m [] ts).2⟩

theorem readsAt_portConnection (ts : List Located) : ReadsAt (portConnection · m) ts := by
  refine .andThen_needed
    (k := fun port => Step.andThen (signal · m) fun s _ ts => .ok ((port, s), ts))
    (readsAt_identifier ts) (fun _ port rest _ => ?_) fun _ _ =>
      andThen_of_error (signalWithin_nil m [])
  exact .andThen (readsAt_signal m rest) (fun _ _ _ _ => .pure fun _ _ => rfl)
    fun _ _ _ hne _ _ => ⟨rfl, hne⟩

/-- A part of a signal is not refused for its length. -/
theorem chunk_fault {e : ParseError} {a b : Nat} (h : chunk lastLine m ts = .error e) :
    e.fault ≠ .widthMismatch a b := by
  unfold chunk at h
  split at h
  · cases h
  · cases h
  · split at h
    · cases h
      exact Fault.noConfusion
    · exact wireSlice_fault _ _ h
  · cases h
    exact Fault.noConfusion
  · cases h
    exact Fault.noConfusion

theorem signal_fault {e : ParseError} {a b : Nat} (h : signal lastLine m ts = .error e) :
    e.fault ≠ .widthMismatch a b := by
  unfold signal at h
  generalize [] = opened at h
  fun_induction signalWithin lastLine m opened ts with
  | case1 opened line ts ih => exact ih h
  | case2 line ts =>
    cases h
    exact Fault.noConfusion
  | case3 line ts parts => cases h
  | case4 line ts parts outer rest ih => exact ih h
  | case5 opened ts _ _ ih =>
    rw [Text.andThen_eq_bind] at h
    cases hchunk : chunk lastLine m ts with
    | error e' =>
      rw [hchunk] at h
      exact Except.error.inj h ▸ chunk_fault m hchunk
    | ok r =>
      rw [hchunk] at h
      cases opened with
      | nil => cases h
      | cons parts outer => exact ih r hchunk parts outer h

/-- A signal that is refused for its length is refused at its last token: the length is not known
before it is there. -/
theorem SignalEndsAt.refusesAt {f : Nat → Step Signal} {k : Signal → Nat → Step α} {s : Signal}
    {before after : List Located} {a b : Nat} (hends : SignalEndsAt f s before t after)
    (h : ∀ lastLine rest, k s lastLine rest = fail lastLine rest (.widthMismatch a b)) :
    RefusesAt (Step.andThen f k) (.widthMismatch a b) before t after where
  ends := hends.ends
  settled lastLine rest hopens := by
    rw [andThen_eq (hends.given lastLine rest hopens), h]
    rfl
  spared := by
    refine ⟨[], idle_nil, fun lastLine => ?_⟩
    obtain ⟨e, he, hfault⟩ := hends.starved lastLine
    rw [List.append_nil, andThen_of_error he]
    rintro (heq : e.fault = _)
    rw [heq] at hfault
    rcases hfault with hfault | ⟨c, hfault⟩ <;> cases hfault

/-- A signal may be refused for its length, after it has been read. -/
theorem readsAt_measured {k : Signal → Nat → Step α}
    (h : ∀ s, (∃ x, ∀ lastLine rest, k s lastLine rest = .ok (x, rest)) ∨
      ∃ a b, ∀ lastLine rest, k s lastLine rest = fail lastLine rest (.widthMismatch a b))
    (ts : List Located) : ReadsAt (Step.andThen (signal · m) k) ts where
  resumes := (readsAt_signal m ts).resumes.andThen fun _ s rest _ => by
    rcases h s with ⟨x, hx⟩ | ⟨a, b, hab⟩
    · exact (ReadsAt.pure hx).resumes
    · intro lastLine x rest hx
      rw [hab] at hx
      cases hx
  refuses lastLine e he := by
    cases hs : signal lastLine m ts with
    | error e' =>
      have hread := readsAt_signal m ts
      refine Refuses.andThen hread
        (fun lastLine s rest hok => absurd hok (hread.resumes.ne_ok hs lastLine s rest))
        (fun lastLine e he hne s lastLine' => ?_) lastLine e he
      rcases h s with ⟨x, hx⟩ | ⟨a, b, hab⟩
      · rw [hx]
        exact ⟨rfl, hne⟩
      · rw [hab]
        exact (signal_fault m he).symm
    | ok r =>
      obtain ⟨s, rest⟩ := r
      rw [andThen_eq hs] at he
      rcases h s with ⟨x, hx⟩ | ⟨a, b, hab⟩
      · rw [hx] at he
        cases he
      · rw [hab] at he
        cases he
        obtain ⟨before, t, rfl, hends⟩ := signalEnds_signal m ts lastLine s rest hs
        exact .inr ⟨before, t, rest, rfl, hends.refusesAt hab⟩

/-- The end of a connection, once both signals are known. -/
def joinTo (driven driver : Signal) : Nat → Step Module := fun lastLine ts =>
  match m.connect? driven driver with
  | some m => .ok (m, ts)
  | none => fail lastLine ts (.widthMismatch driven.length driver.length)

theorem readsAt_connection (ts : List Located) : ReadsAt (connection · m) ts := by
  refine .andThen_needed (k := fun driven => Step.andThen (signal · m) (joinTo m driven))
    (readsAt_signal m ts) (fun _ driven rest _ => readsAt_measured m (fun driver => ?_) rest)
    fun _ _ => andThen_of_error (signalWithin_nil m [])
  cases hconnect : m.connect? driven driver with
  | some m' => exact .inl ⟨m', fun _ _ => by simp only [joinTo, hconnect]⟩
  | none => exact .inr ⟨driven.length, driver.length, fun _ _ => by simp only [joinTo, hconnect]⟩

end

end ClockNet.Rtlil

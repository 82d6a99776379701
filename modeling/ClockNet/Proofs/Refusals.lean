import ClockNet.Rtlil.Parser

/-! # Steps that refuse their tokens

A step of the reader is followed on one sequence of tokens: what it gives there, where it refuses
them, and what of that stays when the tokens behind are others (`ReadsAt`). A refusal has a token at
which it is settled: no continuation of the tokens up to there is without the fault, while those
before the token have one that is (`RefusesAt`). Otherwise the tokens end too early (`CutShort`).

To see that the tokens before are not at fault, they are ended there, or with the bracket that
closes a slice: no step goes on only because of one of these (`Idle`), and so steps can be put one
behind the other (`ReadsAt.bind`). Signals alone end with a token of their own, and look no further
than for the bracket that opens a slice (`SignalEndsAt`). -/

namespace ClockNet.Rtlil

/-- Whether a signal ends with the token. -/
def Token.endsSignal : Token → Bool
  | const _ | int _ | name _ => true
  | mark c => c = ']' || c = '\x7d'
  | word _ | text _ => false

namespace Fault

/-- Whether the reader has gone past the token when it reports the fault. -/
def noticedBehind : Fault → Bool
  | negative _ | invalidSlice .. | duplicateWire _ | duplicateCell _ | duplicateModule _
  | widthMismatch .. | unexpected .. => true
  | lexical _ | endOfInput | expected .. | expectedMark _ | unknownWire _ => false

/-- A construct with the fault ends with the token. -/
def EndsWith : Fault → Token → Prop
  | expected _ found, token | unexpected _ found, token => token = found
  | expectedMark c, token => token ≠ .mark c
  | negative i, token => token = .int i ∧ i < 0
  | unknownWire n, token | duplicateWire n, token | duplicateCell n, token
  | duplicateModule n, token => token = .name n
  | invalidSlice .., token => token = .mark ']'
  | widthMismatch .., token => token.endsSignal = true
  | lexical _, _ | endOfInput, _ => False

/-- The line on which the fault is reported if it is settled at a token that others follow. -/
def lineAt (fault : Fault) (lastLine : Nat) (t : Located) (rest : List Located) : Nat :=
  if fault.noticedBehind then lineOf lastLine rest else t.line

theorem EndsWith.ne_endOfInput {fault : Fault} {token : Token} (h : fault.EndsWith token) :
    fault ≠ .endOfInput := by
  rintro rfl
  exact h

end Fault

/-! ## Continuations -/

variable {α β : Type} {f g : Nat → Step α} {k : α → Nat → Step β} {fault : Fault} {token : Token}
  {before after ts ts' rest rest' : List Located} {t : Located}

/-- The tokens begin with the bracket that opens a slice. -/
def OpensSlice (ts : List Located) : Prop := ts.head?.map (·.token) = some (.mark '[')

/-- No step goes on only because of these tokens: there are none, or they begin with the bracket
that closes a slice. -/
def Idle (ts : List Located) : Prop := ts = [] ∨ ts.head?.map (·.token) = some (.mark ']')

/-- What has come to an end before the first tokens also does before the second. -/
def Resumes (ts ts' : List Located) : Prop := ts'.head? = ts.head? ∨ Idle ts'

theorem OpensSlice.append (h : OpensSlice ts) (rest : List Located) : OpensSlice (ts ++ rest) := by
  cases ts with
  | nil => cases h
  | cons t ts => exact h

theorem OpensSlice.of_append (h : OpensSlice (ts ++ rest)) (hrest : ¬ OpensSlice rest) :
    OpensSlice ts := by
  cases ts with
  | nil => exact absurd h hrest
  | cons t ts => exact h

theorem idle_nil : Idle [] := .inl rfl

theorem Idle.not_opensSlice (h : Idle ts) : ¬ OpensSlice ts := by
  rcases h with rfl | h
  · exact fun ho => nomatch ho
  · unfold OpensSlice
    rw [h]
    decide

namespace Resumes

theorem refl (ts : List Located) : Resumes ts ts := .inl rfl

theorem nil : Resumes ts [] := .inr idle_nil

theorem append (h : Resumes ts ts') : Resumes (before ++ ts) (before ++ ts') := by
  cases before with
  | nil => exact h
  | cons t before => exact .inl rfl

/-- What follows a token does not change what comes before it. -/
theorem behind : Resumes (before ++ t :: rest) (before ++ t :: rest') := .append (.inl rfl)

theorem cut : Resumes (before ++ ts) before := by
  have h : Resumes (before ++ ts) (before ++ []) := .append .nil
  rwa [List.append_nil] at h

theorem append_idle (h : Idle ts') : Resumes ts (ts ++ ts') := by
  cases ts with
  | nil => exact .inr h
  | cons t ts => exact .inl rfl

theorem opensSlice (h : Resumes ts ts') (ho : OpensSlice ts') : OpensSlice ts := by
  rcases h with h | h
  · unfold OpensSlice at ho ⊢
    rwa [h] at ho
  · exact absurd ho h.not_opensSlice

/-- Tokens that do not begin with a certain one are not followed by it either, if it is not the
bracket that closes a slice. -/
theorem not_begins {p : Token → Prop} (h : Resumes ts ts') (hts : ∀ t ∈ ts.head?, ¬ p t.token)
    (hclose : ¬ p (.mark ']')) : ∀ t ∈ ts'.head?, ¬ p t.token := by
  intro t ht
  rcases h with h | rfl | h
  · exact hts t (h ▸ ht)
  · cases ht
  · rw [Option.mem_def.mp ht] at h
    have htoken : t.token = .mark ']' := Option.some.inj h
    rwa [htoken]

end Resumes

/-! ## Outcomes -/

/-- The result is not the fault, and leaves nothing to be read. Where the fault is that a token is
missed, it must be another fault, since a step that comes behind might miss one. -/
def Spares (fault : Fault) : Except ParseError (α × List Located) → Prop
  | .ok (_, rest) => rest = [] ∧ fault ≠ .endOfInput
  | .error e => e.fault ≠ fault

/-- A token with which no step begins. -/
def closing : Located := ⟨.mark ']', 0⟩

/-- One step behind the other. -/
def Step.andThen (f : Nat → Step α) (k : α → Nat → Step β) : Nat → Step β :=
  fun lastLine ts => f lastLine ts >>= fun r => k r.1 lastLine r.2

/-- The step refuses the tokens at `t`, where the fault is settled, and would not have refused those
before it. -/
structure RefusesAt (f : Nat → Step α) (fault : Fault) (before : List Located) (t : Located)
    (after : List Located) : Prop where
  ends : fault.EndsWith t.token
  settled : ∀ lastLine rest, (OpensSlice rest → OpensSlice after) →
    f lastLine (before ++ t :: rest) = .error ⟨fault.lineAt lastLine t rest, fault⟩
  spared : ∃ rest, Idle rest ∧ ∀ lastLine, Spares fault (f lastLine (before ++ rest))

/-- The tokens are refused because they end, where any token is wanted or a certain mark. -/
structure CutShort (f : Nat → Step α) (fault : Fault) (ts : List Located) : Prop where
  ends : fault = .endOfInput ∨ ∃ c, fault = .expectedMark c
  spared : ∃ rest, Idle rest ∧ ∀ lastLine, Spares fault (f lastLine (ts ++ rest))

/-- Whatever the step reads, it also reads before other tokens. -/
def Resumable (f : Nat → Step α) (ts : List Located) : Prop :=
  ∀ lastLine x rest, f lastLine ts = .ok (x, rest) → ∃ used, ts = used ++ rest ∧
    ∀ lastLine rest', Resumes rest rest' → f lastLine (used ++ rest') = .ok (x, rest')

/-- A refusal is settled at one of the tokens, or these end too early. -/
def Refuses (f : Nat → Step α) (ts : List Located) : Prop :=
  ∀ lastLine e, f lastLine ts = .error e → (e.line = lastLine ∧ CutShort f e.fault ts) ∨
    ∃ before t after, ts = before ++ t :: after ∧ RefusesAt f e.fault before t after

/-- What the step does with the tokens is known, and what it does with similar ones. -/
structure ReadsAt (f : Nat → Step α) (ts : List Located) : Prop where
  resumes : Resumable f ts
  refuses : Refuses f ts

/-- The step reads a signal up to `t`, which it cannot do without. -/
structure SignalEndsAt (f : Nat → Step α) (x : α) (before : List Located) (t : Located)
    (after : List Located) : Prop where
  ends : t.token.endsSignal = true
  given : ∀ lastLine rest, (OpensSlice rest → OpensSlice after) →
    f lastLine (before ++ t :: rest) = .ok (x, rest)
  starved : ∀ lastLine, ∃ e, f lastLine before = .error e ∧
    (e.fault = .endOfInput ∨ ∃ c, e.fault = .expectedMark c)

/-- Whatever the step reads ends as a signal does. -/
def SignalEnds (f : Nat → Step α) (ts : List Located) : Prop :=
  ∀ lastLine x rest, f lastLine ts = .ok (x, rest) →
    ∃ before t, ts = before ++ t :: rest ∧ SignalEndsAt f x before t rest

theorem Resumable.ne_ok (h : Resumable f ts) {lastLine : Nat} {e : ParseError}
    (he : f lastLine ts = .error e) (lastLine' : Nat) (x : α) (rest : List Located) :
    f lastLine' ts ≠ .ok (x, rest) := by
  intro hx
  obtain ⟨used, rfl, hresumes⟩ := h lastLine' x rest hx
  exact nomatch he.symm.trans (hresumes lastLine rest (.refl rest))

theorem SignalEnds.resumable (h : SignalEnds f ts) : Resumable f ts := by
  intro lastLine x rest hx
  obtain ⟨before, t, rfl, hstop⟩ := h lastLine x rest hx
  refine ⟨before ++ [t], by simp, fun lastLine rest' hr => ?_⟩
  rw [List.append_assoc]
  exact hstop.given lastLine rest' hr.opensSlice

/-! ## Single tokens -/

theorem Resumable.take (h : ∀ lastLine rest, f lastLine (t :: rest) = g lastLine rest)
    (hg : Resumable g ts) : Resumable f (t :: ts) := by
  intro lastLine x rest hx
  rw [h] at hx
  obtain ⟨used, rfl, hresumes⟩ := hg lastLine x rest hx
  refine ⟨t :: used, rfl, fun lastLine rest' hr => ?_⟩
  rw [List.cons_append, h, hresumes lastLine rest' hr]

theorem Refuses.take (h : ∀ lastLine rest, f lastLine (t :: rest) = g lastLine rest)
    (hg : Refuses g ts) : Refuses f (t :: ts) := by
  intro lastLine e he
  rw [h] at he
  rcases hg lastLine e he with ⟨hline, hcut⟩ | ⟨before, t', after, rfl, hat⟩
  · obtain ⟨rest, hidle, hspared⟩ := hcut.spared
    refine .inl ⟨hline, hcut.ends, rest, hidle, fun lastLine => ?_⟩
    rw [List.cons_append, h]
    exact hspared lastLine
  · obtain ⟨rest, hidle, hspared⟩ := hat.spared
    refine .inr ⟨t :: before, t', after, rfl, hat.ends, fun lastLine rest hopens => ?_,
      rest, hidle, fun lastLine => ?_⟩
    · rw [List.cons_append, h, hat.settled lastLine rest hopens]
    · rw [List.cons_append, h]
      exact hspared lastLine

theorem SignalEnds.take (h : ∀ lastLine rest, f lastLine (t :: rest) = g lastLine rest)
    (hg : SignalEnds g ts) : SignalEnds f (t :: ts) := by
  intro lastLine x rest hx
  rw [h] at hx
  obtain ⟨before, t', rfl, hstop⟩ := hg lastLine x rest hx
  refine ⟨t :: before, t', rfl, hstop.ends, fun lastLine rest' hopens => ?_, fun lastLine => ?_⟩
  · rw [List.cons_append, h, hstop.given lastLine rest' hopens]
  · rw [h]
    exact hstop.starved lastLine

theorem ReadsAt.take (h : ∀ lastLine rest, f lastLine (t :: rest) = g lastLine rest)
    (hg : ReadsAt g ts) : ReadsAt f (t :: ts) :=
  ⟨.take h hg.resumes, .take h hg.refuses⟩

theorem ReadsAt.pure {x : α} (h : ∀ lastLine rest, f lastLine rest = .ok (x, rest)) :
    ReadsAt f ts where
  resumes lastLine y rest hy := by
    rw [h] at hy
    cases hy
    exact ⟨[], rfl, fun lastLine rest' _ => h lastLine rest'⟩
  refuses lastLine e he := by
    rw [h] at he
    cases he

theorem Refuses.of_refused (fault : Fault) (h : ∀ lastLine rest,
      f lastLine (t :: rest) = .error ⟨fault.lineAt lastLine t rest, fault⟩)
    (hends : fault.EndsWith t.token)
    (hspared : ∃ rest, Idle rest ∧ ∀ lastLine, Spares fault (f lastLine rest)) :
    Refuses f (t :: ts) := by
  intro lastLine e he
  rw [h] at he
  cases he
  exact .inr ⟨[], t, ts, rfl, hends, fun lastLine rest _ => h lastLine rest, hspared⟩

theorem ReadsAt.refused (fault : Fault) (h : ∀ lastLine rest,
      f lastLine (t :: rest) = .error ⟨fault.lineAt lastLine t rest, fault⟩)
    (hends : fault.EndsWith t.token)
    (hspared : ∃ rest, Idle rest ∧ ∀ lastLine, Spares fault (f lastLine rest)) :
    ReadsAt f (t :: ts) where
  resumes lastLine x rest hx := by
    rw [h] at hx
    cases hx
  refuses := .of_refused fault h hends hspared

theorem spares_endOfInput (hends : fault.EndsWith token) {line : Nat} :
    Spares fault (.error ⟨line, .endOfInput⟩ : Except ParseError (α × List Located)) :=
  hends.ne_endOfInput.symm

/-- A step that wants a token, and refuses the first one. -/
theorem ReadsAt.refused_needed (fault : Fault) (h : ∀ lastLine rest,
      f lastLine (t :: rest) = .error ⟨fault.lineAt lastLine t rest, fault⟩)
    (hends : fault.EndsWith t.token)
    (hnil : ∀ lastLine, f lastLine [] = .error ⟨lastLine, .endOfInput⟩) : ReadsAt f (t :: ts) :=
  .refused fault h hends ⟨[], idle_nil, fun lastLine => hnil lastLine ▸ spares_endOfInput hends⟩

theorem ReadsAt.nil (hnil : ∀ lastLine, f lastLine [] = .error ⟨lastLine, .endOfInput⟩)
    (hclose : ∀ lastLine, Spares .endOfInput (f lastLine [closing])) : ReadsAt f [] where
  resumes lastLine x rest hx := by
    rw [hnil] at hx
    cases hx
  refuses lastLine e he := by
    rw [hnil] at he
    cases he
    exact .inl ⟨rfl, .inl rfl, [closing], .inr rfl, hclose⟩

/-- A step that takes one token or refuses it. -/
theorem ReadsAt.single (hnil : ∀ lastLine, f lastLine [] = .error ⟨lastLine, .endOfInput⟩)
    (hclose : ∀ lastLine, Spares .endOfInput (f lastLine [closing]))
    (hcons : ∀ t, (∃ x, ∀ lastLine rest, f lastLine (t :: rest) = .ok (x, rest)) ∨
      ∃ fault, fault.EndsWith t.token ∧ ∀ lastLine rest,
        f lastLine (t :: rest) = .error ⟨fault.lineAt lastLine t rest, fault⟩) (ts : List Located) :
    ReadsAt f ts := by
  cases ts with
  | nil => exact .nil hnil hclose
  | cons t ts =>
    rcases hcons t with ⟨x, hx⟩ | ⟨fault, hends, hfault⟩
    · exact .take hx (.pure fun _ _ => rfl)
    · exact .refused_needed fault hfault hends hnil

theorem SignalEnds.last {x : α} (hends : t.token.endsSignal = true)
    (hnil : ∀ lastLine, ∃ e, f lastLine [] = .error e ∧
      (e.fault = .endOfInput ∨ ∃ c, e.fault = .expectedMark c))
    (h : ∀ lastLine rest, (OpensSlice rest → OpensSlice ts) →
      f lastLine (t :: rest) = .ok (x, rest)) :
    SignalEnds f (t :: ts) := by
  intro lastLine y rest hy
  rw [h lastLine ts id] at hy
  cases hy
  exact ⟨[], t, rfl, hends, h, hnil⟩

theorem SignalEnds.of_error (h : ∀ lastLine, ∃ e, f lastLine ts = .error e) : SignalEnds f ts := by
  intro lastLine x rest hx
  obtain ⟨e, he⟩ := h lastLine
  rw [he] at hx
  cases hx

/-! ## Similar steps -/

section
variable (h : ∀ lastLine ts', Resumes ts ts' → f lastLine ts' = g lastLine ts')
include h

/-- It is enough to know a step on the tokens, and on those that go on with nothing. -/
theorem Resumable.congr (hg : Resumable g ts) : Resumable f ts := by
  intro lastLine x rest hx
  rw [h lastLine ts (.refl ts)] at hx
  obtain ⟨used, rfl, hresumes⟩ := hg lastLine x rest hx
  refine ⟨used, rfl, fun lastLine rest' hr => ?_⟩
  rw [h lastLine _ hr.append, hresumes lastLine rest' hr]

theorem Refuses.congr (hg : Refuses g ts) : Refuses f ts := by
  intro lastLine e he
  rw [h lastLine ts (.refl ts)] at he
  rcases hg lastLine e he with ⟨hline, hcut⟩ | ⟨before, t, after, rfl, hat⟩
  · obtain ⟨rest, hidle, hspared⟩ := hcut.spared
    refine .inl ⟨hline, hcut.ends, rest, hidle, fun lastLine => ?_⟩
    rw [h lastLine _ (.append_idle hidle)]
    exact hspared lastLine
  · obtain ⟨rest, hidle, hspared⟩ := hat.spared
    refine .inr ⟨before, t, after, rfl, hat.ends, fun lastLine rest hopens => ?_,
      rest, hidle, fun lastLine => ?_⟩
    · rw [h lastLine _ .behind, hat.settled lastLine rest hopens]
    · rw [h lastLine _ (.append (.inr hidle))]
      exact hspared lastLine

theorem SignalEnds.congr (hg : SignalEnds g ts) : SignalEnds f ts := by
  intro lastLine x rest hx
  rw [h lastLine ts (.refl ts)] at hx
  obtain ⟨before, t, rfl, hstop⟩ := hg lastLine x rest hx
  refine ⟨before, t, rfl, hstop.ends, fun lastLine rest' hopens => ?_, fun lastLine => ?_⟩
  · rw [h lastLine _ .behind, hstop.given lastLine rest' hopens]
  · rw [h lastLine _ .cut]
    exact hstop.starved lastLine

theorem ReadsAt.congr (hg : ReadsAt g ts) : ReadsAt f ts := ⟨hg.resumes.congr h, hg.refuses.congr h⟩

end

/-! ## One step behind the other -/

theorem andThen_eq {lastLine : Nat} {x : α} (h : f lastLine ts = .ok (x, rest)) :
    Step.andThen f k lastLine ts = k x lastLine rest := by
  unfold Step.andThen
  rw [h]
  rfl

theorem andThen_of_ok {used : List Located} {x : α}
    (h : ∀ lastLine rest', Resumes rest rest' → f lastLine (used ++ rest') = .ok (x, rest'))
    {lastLine : Nat} (hr : Resumes rest rest') :
    Step.andThen f k lastLine (used ++ rest') = k x lastLine rest' :=
  andThen_eq (h lastLine rest' hr)

theorem andThen_of_error {lastLine : Nat} {e : ParseError} (h : f lastLine ts = .error e) :
    Step.andThen f k lastLine ts = .error e := by
  unfold Step.andThen
  rw [h]
  rfl

theorem of_andThen_error {lastLine : Nat} {e : ParseError}
    (h : Step.andThen f k lastLine ts = .error e) : f lastLine ts = .error e ∨
      ∃ x rest, f lastLine ts = .ok (x, rest) ∧ k x lastLine rest = .error e := by
  unfold Step.andThen at h
  cases hf : f lastLine ts with
  | error e' =>
    rw [hf] at h
    exact .inl (congrArg Except.error (Except.error.inj h))
  | ok r =>
    rw [hf] at h
    exact .inr ⟨r.1, r.2, rfl, h⟩

theorem Spares.andThen {lastLine : Nat} (h : Spares fault (f lastLine ts))
    (hk : fault ≠ .endOfInput → ∀ x, Spares fault (k x lastLine [])) :
    Spares fault (Step.andThen f k lastLine ts) := by
  unfold Step.andThen
  cases hf : f lastLine ts with
  | error e =>
    rw [hf] at h
    exact h
  | ok r =>
    obtain ⟨x, rest⟩ := r
    rw [hf] at h
    obtain ⟨rfl, hne⟩ := h
    exact hk hne x

theorem Resumable.andThen (hf : Resumable f ts)
    (hk : ∀ lastLine x rest, f lastLine ts = .ok (x, rest) → Resumable (k x) rest) :
    Resumable (Step.andThen f k) ts := by
  intro lastLine y rest hy
  obtain ⟨⟨x, mid⟩, hx, hnext⟩ := Text.of_bind_ok hy
  obtain ⟨used, rfl, hresumes⟩ := hf lastLine x mid hx
  obtain ⟨used', rfl, hresumes'⟩ := hk lastLine x mid hx lastLine y rest hnext
  refine ⟨used ++ used', by simp, fun lastLine rest' hr => ?_⟩
  rw [List.append_assoc, andThen_of_ok hresumes hr.append, hresumes' lastLine rest' hr]

theorem SignalEnds.andThen (hf : Resumable f ts)
    (hk : ∀ lastLine x rest, f lastLine ts = .ok (x, rest) → SignalEnds (k x) rest) :
    SignalEnds (Step.andThen f k) ts := by
  intro lastLine y rest hy
  obtain ⟨⟨x, mid⟩, hx, hnext⟩ := Text.of_bind_ok hy
  obtain ⟨used, rfl, hresumes⟩ := hf lastLine x mid hx
  obtain ⟨before, t, rfl, hstop⟩ := hk lastLine x mid hx lastLine y rest hnext
  refine ⟨used ++ before, t, by simp, hstop.ends, fun lastLine rest' hopens => ?_,
    fun lastLine => ?_⟩
  · rw [List.append_assoc, andThen_of_ok hresumes .behind,
      hstop.given lastLine rest' hopens]
  · rw [andThen_of_ok hresumes .cut]
    exact hstop.starved lastLine

/-- Where the first step refuses, the second must not be at fault for want of tokens. -/
theorem Refuses.andThen (hf : ReadsAt f ts)
    (hk : ∀ lastLine x rest, f lastLine ts = .ok (x, rest) → Refuses (k x) rest)
    (hquiet : ∀ lastLine e, f lastLine ts = .error e → e.fault ≠ .endOfInput →
      ∀ x lastLine, Spares e.fault (k x lastLine [])) :
    Refuses (Step.andThen f k) ts := by
  intro lastLine e he
  cases hx : f lastLine ts with
  | error e' =>
    -- the place is one of the first step's; it only has to be spared by the second one as well
    rw [andThen_of_error hx] at he
    cases he
    rcases hf.refuses lastLine e hx with ⟨hline, hcut⟩ | ⟨before, t, after, rfl, hat⟩
    · obtain ⟨rest, hidle, hspared⟩ := hcut.spared
      exact .inl ⟨hline, hcut.ends, rest, hidle, fun lastLine =>
        (hspared lastLine).andThen fun hne x => hquiet _ e hx hne x lastLine⟩
    · obtain ⟨rest, hidle, hspared⟩ := hat.spared
      exact .inr ⟨before, t, after, rfl, hat.ends,
        fun lastLine rest hopens => andThen_of_error (hat.settled lastLine rest hopens),
        rest, hidle, fun lastLine =>
          (hspared lastLine).andThen fun hne x => hquiet _ e hx hne x lastLine⟩
  | ok r =>
    -- the place is one of the second step's, behind what the first one reads in every case
    obtain ⟨x, mid⟩ := r
    obtain ⟨used, rfl, hresumes⟩ := hf.resumes lastLine x mid hx
    rw [andThen_of_ok hresumes (.refl mid)] at he
    rcases hk lastLine x mid hx lastLine e he with ⟨hline, hcut⟩ | ⟨before, t, after, rfl, hat⟩
    · obtain ⟨rest, hidle, hspared⟩ := hcut.spared
      refine .inl ⟨hline, hcut.ends, rest, hidle, fun lastLine => ?_⟩
      rw [List.append_assoc, andThen_of_ok hresumes (.append_idle hidle)]
      exact hspared lastLine
    · obtain ⟨rest, hidle, hspared⟩ := hat.spared
      refine .inr ⟨used ++ before, t, after, by simp, hat.ends, fun lastLine rest hopens => ?_,
        rest, hidle, fun lastLine => ?_⟩
      · rw [List.append_assoc, andThen_of_ok hresumes .behind,
          hat.settled lastLine rest hopens]
      · rw [List.append_assoc, andThen_of_ok hresumes (.append (.inr hidle))]
        exact hspared lastLine

theorem ReadsAt.andThen (hf : ReadsAt f ts)
    (hk : ∀ lastLine x rest, f lastLine ts = .ok (x, rest) → ReadsAt (k x) rest)
    (hquiet : ∀ lastLine e, f lastLine ts = .error e → e.fault ≠ .endOfInput →
      ∀ x lastLine, Spares e.fault (k x lastLine [])) :
    ReadsAt (Step.andThen f k) ts where
  resumes := hf.resumes.andThen fun lastLine x rest hx => (hk lastLine x rest hx).resumes
  refuses := .andThen hf (fun lastLine x rest hx => (hk lastLine x rest hx).refuses) hquiet

/-- The same where the second step wants a token. -/
theorem ReadsAt.andThen_needed (hf : ReadsAt f ts)
    (hk : ∀ lastLine x rest, f lastLine ts = .ok (x, rest) → ReadsAt (k x) rest)
    (hnil : ∀ x lastLine, k x lastLine [] = .error ⟨lastLine, .endOfInput⟩) :
    ReadsAt (Step.andThen f k) ts :=
  .andThen hf hk fun _ _ _ hne x lastLine => hnil x lastLine ▸ hne.symm

end ClockNet.Rtlil

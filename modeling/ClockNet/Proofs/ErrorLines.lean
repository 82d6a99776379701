import ClockNet.Proofs.DesignRefusals
import Mathlib

/-! # The line of an error

A text that is cut into tokens but refused has exactly one token at which the fault is settled, the
last one of the construct that is refused, unless it ends too early. Faults that are noticed at the
token are reported on its line, those noticed behind it on the line of the token that follows
(`refusal_line`). -/

namespace ClockNet.Rtlil

/-- The fault is settled at `t`: whatever follows, the tokens up to there are refused for it, while
those before `t` have a continuation that is not. A bracket that opens a slice may only follow if it
does in the text, since it would belong to the same construct if `t` is the name of a wire. -/
structure SettledAt (fault : Fault) (before : List Located) (t : Located) (after : List Located) :
    Prop where
  ends : fault.EndsWith t.token
  settled : ∀ rest, (OpensSlice rest → OpensSlice after) →
    ∃ line, ofTokens (before ++ t :: rest) = .error ⟨line, fault⟩
  spared : ∃ rest, ¬ OpensSlice rest ∧ ∀ line, ofTokens (before ++ rest) ≠ .error ⟨line, fault⟩

/-- The tokens end where another one is wanted, any token or a certain mark, and have a continuation
without the fault. -/
structure EndsEarly (fault : Fault) (ts : List Located) : Prop where
  ends : fault = .endOfInput ∨ ∃ c, fault = .expectedMark c
  spared : ∃ rest, ¬ OpensSlice rest ∧ ∀ line, ofTokens (ts ++ rest) ≠ .error ⟨line, fault⟩

variable {fault : Fault} {ts before after before' after' : List Located} {t t' : Located}
  {lastLine : Nat}

theorem SettledAt.not_later {mid : List Located}
    (h : SettledAt fault before t (mid ++ t' :: after)) :
    ¬ SettledAt fault (before ++ t :: mid) t' after := by
  intro h'
  obtain ⟨rest, hopens, hspared⟩ := h'.spared
  obtain ⟨line, hline⟩ := h.settled (mid ++ rest) fun ho => (ho.of_append hopens).append _
  refine hspared line ?_
  rw [List.append_assoc, List.cons_append]
  exact hline

theorem SettledAt.unique (h : SettledAt fault before t after)
    (h' : SettledAt fault before' t' after')
    (heq : before ++ t :: after = before' ++ t' :: after') :
    before = before' ∧ t = t' ∧ after = after' := by
  rcases List.append_eq_append_iff.mp heq with ⟨mid, rfl, hmid⟩ | ⟨mid, rfl, hmid⟩
  · cases mid with
    | nil =>
      obtain ⟨rfl, rfl⟩ := List.cons.inj hmid
      exact ⟨(List.append_nil before).symm, rfl, rfl⟩
    | cons u mid =>
      obtain ⟨rfl, rfl⟩ := List.cons.inj hmid
      exact absurd h' h.not_later
  · cases mid with
    | nil =>
      obtain ⟨rfl, rfl⟩ := List.cons.inj hmid
      exact ⟨List.append_nil before', rfl, rfl⟩
    | cons u mid =>
      obtain ⟨rfl, rfl⟩ := List.cons.inj hmid
      exact absurd h h'.not_later

theorem SettledAt.not_endsEarly (h : SettledAt fault before t after) :
    ¬ EndsEarly fault (before ++ t :: after) := by
  intro hearly
  obtain ⟨rest, hopens, hspared⟩ := hearly.spared
  obtain ⟨line, hline⟩ := h.settled (after ++ rest) fun ho => ho.of_append hopens
  refine hspared line ?_
  rw [List.append_assoc, List.cons_append]
  exact hline

theorem designStep_eq_error {d : Design} {pending : Attributes} {e : ParseError} :
    designStep d pending lastLine ts = .error e ↔ designBody lastLine d pending ts = .error e := by
  unfold designStep
  cases designBody lastLine d pending ts with
  | ok d => exact iff_of_false (fun h => nomatch h) (fun h => nomatch h)
  | error e' =>
    constructor
    · intro h
      exact congrArg Except.error (Except.error.inj h)
    · intro h
      exact congrArg Except.error (Except.error.inj h)

theorem ofTokens_ne_of_spares
    (h : ∀ lastLine, Spares fault (designStep {} .empty lastLine ts)) (line : Nat) :
    ofTokens ts ≠ .error ⟨line, fault⟩ := by
  intro he
  have hspares := h (lastLineOf ts)
  rw [designStep_eq_error.mpr he] at hspares
  exact hspares rfl

theorem RefusesAt.settledAt (h : RefusesAt (designStep {} .empty) fault before t after) :
    SettledAt fault before t after where
  ends := h.ends
  settled rest hopens :=
    ⟨_, designStep_eq_error.mp (h.settled (lastLineOf (before ++ t :: rest)) rest hopens)⟩
  spared := by
    obtain ⟨rest, hidle, hspared⟩ := h.spared
    exact ⟨rest, hidle.not_opensSlice, ofTokens_ne_of_spares hspared⟩

theorem CutShort.endsEarly (h : CutShort (designStep {} .empty) fault ts) :
    EndsEarly fault ts where
  ends := h.ends
  spared := by
    obtain ⟨rest, hidle, hspared⟩ := h.spared
    exact ⟨rest, hidle.not_opensSlice, ofTokens_ne_of_spares hspared⟩

theorem lineAt_lastLineOf (before : List Located) (t : Located) (after : List Located) :
    fault.lineAt (lastLineOf (before ++ t :: after)) t after =
      if fault.noticedBehind then lineOf t.line after else t.line := by
  unfold Fault.lineAt
  cases after with
  | nil => simp [lineOf, lastLineOf]
  | cons t' after => rfl

/-- A text with tokens that is refused either ends too early, which is reported on the line of its
last token, or has exactly one token at which the fault is settled. This is reported on the line of
that token, unless it is noticed behind it: a negative number, a slice out of range, a name that is
taken, different widths, and a token without a meaning in its place are reported on the line of the
token that follows, if there is one. -/
theorem refusal_line {text : String} {ts : List Located} {e : ParseError}
    (htokens : tokens text.toList = .ok ts) (hparse : parse text = .error e) :
    (EndsEarly e.fault ts ∧ e.line = lastLineOf ts ∨
      ∃ before t after, ts = before ++ t :: after ∧ SettledAt e.fault before t after) ∧
    ∀ before t after, ts = before ++ t :: after → SettledAt e.fault before t after →
      e.line = if e.fault.noticedBehind then lineOf t.line after else t.line := by
  have hbody : designBody (lastLineOf ts) {} .empty ts = .error e := by
    unfold parse at hparse
    rw [htokens] at hparse
    exact hparse
  rcases refuses_designBody {} .empty ts _ e (designStep_eq_error.mpr hbody) with
    ⟨hline, hcut⟩ | ⟨before, t, after, rfl, hat⟩
  · refine ⟨.inl ⟨hcut.endsEarly, hline⟩, ?_⟩
    rintro before t after rfl hsettled
    exact absurd hcut.endsEarly hsettled.not_endsEarly
  · refine ⟨.inr ⟨before, t, after, rfl, hat.settledAt⟩, fun before' t' after' heq hsettled => ?_⟩
    obtain ⟨rfl, rfl, rfl⟩ := hat.settledAt.unique hsettled heq
    have he := hat.settled (lastLineOf (before ++ t :: after)) after id
    rw [designStep_eq_error, hbody] at he
    rw [← lineAt_lastLineOf before t after]
    exact congrArg ParseError.line (Except.error.inj he)

/-- A connection that is spread over lines is refused where it names a wire that there is not. -/
theorem refusal_line_unknownWire : ∃ before after,
    tokens "module \\top\n  connect \x7b\n    \\b\n  \x7d 1'0\nend\n".toList =
      .ok (before ++ ⟨.name "b", 3⟩ :: after) ∧
    SettledAt (.unknownWire "b") before ⟨.name "b", 3⟩ after := by
  have htokens : tokens "module \\top\n  connect \x7b\n    \\b\n  \x7d 1'0\nend\n".toList =
      .ok [⟨.word "module", 1⟩, ⟨.name "top", 1⟩, ⟨.word "connect", 2⟩, ⟨.mark '\x7b', 2⟩,
        ⟨.name "b", 3⟩, ⟨.mark '\x7d', 4⟩, ⟨.const [.zero], 4⟩, ⟨.word "end", 5⟩] := by cbv
  have hparse : parse "module \\top\n  connect \x7b\n    \\b\n  \x7d 1'0\nend\n" =
      .error ⟨3, .unknownWire "b"⟩ := by
    rw [parse, htokens]
    change designBody 5 {} .empty _ = _
    rw [designBody, Text.andThen_eq_bind]
    change (moduleBody 5 { name := "top" } .empty _ >>= _) >>= _ = _
    rw [moduleBody, Text.andThen_eq_bind]
    change (((signalWithin 5 { name := "top" } [] _ >>= _) >>= _) >>= _) >>= _ = _
    rw [signalWithin, signalWithin_part _ (by simp)]
    rfl
  obtain ⟨hplace, hline⟩ := refusal_line htokens hparse
  rcases hplace with ⟨hearly, -⟩ | ⟨before, t, after, heq, hsettled⟩
  · rcases hearly.ends with hfault | ⟨c, hfault⟩ <;> cases hfault
  · have hend : t.token = .name "b" := hsettled.ends
    have ht : 3 = t.line := hline before t after heq hsettled
    obtain ⟨token, line⟩ := t
    cases hend
    cases ht
    exact ⟨before, after, heq ▸ htokens, hsettled⟩

/-- A module that is ended, and the keyword of a second one. -/
def twoModules : List Located :=
  [⟨.word "module", 1⟩, ⟨.name "top", 1⟩, ⟨.word "end", 2⟩, ⟨.word "module", 3⟩]

theorem designBody_twoModules (lastLine : Nat) (rest : List Located) :
    designBody lastLine {} .empty (twoModules ++ rest) =
      module lastLine ⟨[{ name := "top" }]⟩ .empty rest >>= fun r =>
        designBody lastLine r.1 .empty r.2 := by
  have hbare : ({ name := "top" } : Module).renumberPorts = { name := "top" } := by cbv
  unfold twoModules
  rw [List.cons_append, designBody, Text.andThen_eq_bind]
  change (moduleBody lastLine { name := "top" } .empty (⟨.word "end", 2⟩ :: _) >>= _) >>= _ = _
  rw [moduleBody, hbare]
  change designBody lastLine ⟨[{ name := "top" }]⟩ .empty (⟨.word "module", 3⟩ :: rest) = _
  rw [designBody, Text.andThen_eq_bind]

/-- The second module of a name is refused for the name on the third line, but on the fourth. -/
theorem repeated_name_passed :
    tokens "module \\top\nend\nmodule \\top\nend\n".toList =
      .ok (twoModules ++ ⟨.name "top", 3⟩ :: [⟨.word "end", 4⟩]) ∧
    SettledAt (.duplicateModule "top") twoModules ⟨.name "top", 3⟩ [⟨.word "end", 4⟩] ∧
    parse "module \\top\nend\nmodule \\top\nend\n" = .error ⟨4, .duplicateModule "top"⟩ := by
  have htokens : tokens "module \\top\nend\nmodule \\top\nend\n".toList =
      .ok (twoModules ++ ⟨.name "top", 3⟩ :: [⟨.word "end", 4⟩]) := by cbv
  have hrefused : ∀ rest, ofTokens (twoModules ++ ⟨.name "top", 3⟩ :: rest) =
      .error ⟨lineOf (lastLineOf (twoModules ++ ⟨.name "top", 3⟩ :: rest)) rest,
        .duplicateModule "top"⟩ := fun rest => by
    rw [ofTokens, designBody_twoModules]
    rfl
  refine ⟨htokens, ⟨rfl, fun rest _ => ⟨_, hrefused rest⟩, [], idle_nil.not_opensSlice,
    fun line => ?_⟩, ?_⟩
  · rw [ofTokens, designBody_twoModules]
    intro h
    cases h
  · rw [parse, htokens]
    exact hrefused [⟨.word "end", 4⟩]

end ClockNet.Rtlil

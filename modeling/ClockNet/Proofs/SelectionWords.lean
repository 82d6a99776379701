import ClockNet.Proofs.Words
import ClockNet.Selection.Parser
import ClockNet.Text.Step
import Mathlib

/-! # Which texts are selections

The words of a selection are operators and terms, and a term speaks of modules, of wires, or of the
wires of some modules (`Written`). A text is read exactly if it has words, all of these are of one
of the two sorts, and no operator comes before it has two operands (`parse_eq_ok`). -/

namespace ClockNet

def SelectionWord.isOperator : SelectionWord → Bool
  | term .. => false
  | _ => true

namespace Selection

variable {text rest : List Char} {part : Option (List Char)} {w : SelectionWord}

/-! ## Words -/

/-- The letter of a kind, and what the kind asks of a wire whose name matches. -/
inductive NameKind : Char → (String → WirePattern) → Prop where
  | wire : NameKind 'w' .named
  | input : NameKind 'i' .input
  | output : NameKind 'o' .output
  | port : NameKind 'x' .port

/-- A text that speaks of wires by a kind: by name, or by an attribute that they have. -/
inductive KindText : List Char → WirePattern → Prop where
  | name {letter : Char} {kind : String → WirePattern} {glob : List Char}
      (hkind : NameKind letter kind) (hne : glob ≠ []) :
      KindText (letter :: ':' :: glob) (kind (String.ofList glob))
  | present {name : List Char} (hne : name ≠ []) (hn : '=' ∉ name) :
      KindText ('a' :: ':' :: name) (.tagged (String.ofList name) none)
  | valued {name expected : List Char} (hne : name ≠ []) (hn : '=' ∉ name) :
      KindText ('a' :: ':' :: (name ++ '=' :: expected))
        (.tagged (String.ofList name) (some (String.ofList expected)))

/-- The text begins with the letter of a kind and a colon. -/
def HasKind (text : List Char) : Prop :=
  ∃ kind ∈ ['w', 'i', 'o', 'x', 'a'], ∃ rest, text = kind :: ':' :: rest

/-- The module part of a term and what follows it. A part with a colon is none. -/
inductive ModulePart : List Char → Option (List Char) → List Char → Prop where
  | some {glob rest : List Char} (hs : '/' ∉ glob) (hc : ':' ∉ glob) :
      ModulePart (glob ++ '/' :: rest) (some glob) rest
  | none {text : List Char}
      (h : ∀ glob rest, '/' ∉ glob → text = glob ++ '/' :: rest → ':' ∈ glob) :
      ModulePart text none text

/-- What follows a module part speaks of wires, without a kind by name; where there is no module
part, a text without a kind is a module's name. -/
inductive ObjectText : Option (List Char) → List Char → SelectionWord → Prop where
  | modules {text : List Char} (hkind : ¬ HasKind text) :
      ObjectText none text (.term (some (String.ofList text)) none)
  | wires {part text : List Char} (hkind : ¬ HasKind text) (hne : text ≠ []) :
      ObjectText (some part) text
        (.term (some (String.ofList part)) (some (.named (String.ofList text))))
  | ofKind {part : Option (List Char)} {text : List Char} {object : WirePattern}
      (hkind : KindText text object) :
      ObjectText part text (.term (part.map String.ofList) (some object))

/-- The letter of an operator. -/
inductive OperatorLetter : Char → SelectionWord → Prop where
  | union : OperatorLetter 'u' .union
  | intersection : OperatorLetter 'i' .intersection
  | difference : OperatorLetter 'd' .difference

/-- A word is an operator, or a term, which does not begin with a percent sign. -/
inductive Written : List Char → SelectionWord → Prop where
  | operator {letter : Char} {w : SelectionWord} (hletter : OperatorLetter letter w) :
      Written ['%', letter] w
  | term {text rest : List Char} {part : Option (List Char)} {w : SelectionWord}
      (hop : text.head? ≠ some '%') (hpart : ModulePart text part rest)
      (hobject : ObjectText part rest w) : Written text w

theorem modulePart_iff : ModulePart text part rest ↔ modulePart text = (part, rest) := by
  unfold modulePart
  cases hsplit : Text.splitAtFirst '/' text with
  | none =>
    have hout := Text.splitAtFirst_eq_none.mp hsplit
    constructor
    · intro h
      cases h with
      | some hs hc => exact absurd (by simp) hout
      | none h => rfl
    · intro h
      obtain ⟨rfl, rfl⟩ := Prod.mk.inj h
      exact .none fun glob rest _ he => absurd (by simp [he]) hout
  | some parts =>
    obtain ⟨before, after⟩ := parts
    obtain ⟨hs, rfl⟩ := Text.splitAtFirst_eq_some.mp hsplit
    have honce : ∀ glob rest, '/' ∉ glob → before ++ '/' :: after = glob ++ '/' :: rest →
        glob = before ∧ rest = after := by
      intro glob rest hg he
      rw [Text.splitAtFirst_eq_some.mpr ⟨hg, he⟩] at hsplit
      exact Prod.mk.inj (Option.some.inj hsplit)
    dsimp only
    by_cases hc : ':' ∈ before
    · rw [if_pos (by simpa using hc)]
      constructor
      · intro h
        generalize he : before ++ '/' :: after = text at h
        cases h with
        | some hs' hc' => exact absurd ((honce _ _ hs' he).1 ▸ hc) hc'
        | none h => rfl
      · intro h
        obtain ⟨rfl, rfl⟩ := Prod.mk.inj h
        exact .none fun glob rest hg he => (honce glob rest hg he).1 ▸ hc
    · rw [if_neg (by simpa using hc)]
      constructor
      · intro h
        generalize he : before ++ '/' :: after = text at h
        cases h with
        | some hs' hc' =>
          obtain ⟨rfl, rfl⟩ := honce _ _ hs' he
          rfl
        | none h => exact absurd (h before after hs he.symm) hc
      · intro h
        obtain ⟨rfl, rfl⟩ := Prod.mk.inj h
        exact .some hs hc

theorem namePattern_eq_ok {kind : String → WirePattern} {glob : List Char} {p : WirePattern} :
    namePattern kind glob = .ok p ↔ glob ≠ [] ∧ kind (String.ofList glob) = p := by
  unfold namePattern
  split
  · rename_i h
    simp [h]
  · rename_i h
    simp [h]

theorem attributePattern_eq_ok {p : WirePattern} :
    attributePattern text = .ok p ↔ KindText ('a' :: ':' :: text) p := by
  unfold attributePattern
  cases hsplit : Text.splitAtFirst '=' text with
  | none =>
    have hout := Text.splitAtFirst_eq_none.mp hsplit
    dsimp only
    constructor
    · intro h
      split at h
      · cases h
      · rename_i hne
        cases h
        exact .present hne hout
    · intro h
      cases h with
      | name hkind _ => cases hkind
      | present hne _ => rw [if_neg hne]
      | valued _ _ => exact absurd (by simp) hout
  | some parts =>
    obtain ⟨name, expected⟩ := parts
    obtain ⟨hn, rfl⟩ := Text.splitAtFirst_eq_some.mp hsplit
    dsimp only
    constructor
    · intro h
      split at h
      · cases h
      · rename_i hne
        cases h
        exact .valued hne hn
    · intro h
      generalize he : name ++ '=' :: expected = text at h
      cases h with
      | name hkind _ => cases hkind
      | present hne hn' => exact absurd (he ▸ by simp) hn'
      | valued hne hn' =>
        rw [he, Text.splitAtFirst_eq_some.mpr ⟨hn', rfl⟩] at hsplit
        obtain ⟨rfl, rfl⟩ := Prod.mk.inj (Option.some.inj hsplit)
        rw [if_neg hne]

theorem hasKind_of_kindText {object : WirePattern} (h : KindText text object) : HasKind text := by
  cases h with
  | name hkind _ =>
    refine ⟨_, ?_, _, rfl⟩
    cases hkind <;> decide
  | present _ _ => exact ⟨'a', by decide, _, rfl⟩
  | valued _ _ => exact ⟨'a', by decide, _, rfl⟩

theorem objectText_of_kind (h : HasKind text) : ObjectText part text w ↔
    ∃ object, KindText text object ∧ .term (part.map String.ofList) (some object) = w := by
  constructor
  · intro ho
    cases ho with
    | modules hkind => exact absurd h hkind
    | wires hkind _ => exact absurd h hkind
    | ofKind hkind => exact ⟨_, hkind, rfl⟩
  · rintro ⟨object, hkind, rfl⟩
    exact .ofKind hkind

theorem objectText_of_noKind_none (h : ¬ HasKind text) :
    ObjectText none text w ↔ .term (some (String.ofList text)) none = w := by
  constructor
  · intro ho
    cases ho with
    | modules _ => rfl
    | ofKind hkind => exact absurd (hasKind_of_kindText hkind) h
  · rintro rfl
    exact .modules h

theorem objectText_of_noKind_some {glob : List Char} (h : ¬ HasKind text) :
    ObjectText (some glob) text w ↔ text ≠ [] ∧
      .term (some (String.ofList glob)) (some (.named (String.ofList text))) = w := by
  constructor
  · intro ho
    cases ho with
    | wires _ hne => exact ⟨hne, rfl⟩
    | ofKind hkind => exact absurd (hasKind_of_kindText hkind) h
  · rintro ⟨hne, rfl⟩
    exact .wires h hne

theorem kindText_name {letter : Char} {kind : String → WirePattern} {glob : List Char}
    {object : WirePattern} (hkind : NameKind letter kind) :
    KindText (letter :: ':' :: glob) object ↔ namePattern kind glob = .ok object := by
  rw [namePattern_eq_ok]
  constructor
  · intro h
    cases h with
    | name hkind' hne => cases hkind <;> cases hkind' <;> exact ⟨hne, rfl⟩
    | present _ _ => cases hkind
    | valued _ _ => cases hkind
  · rintro ⟨hne, rfl⟩
    exact .name hkind hne

theorem term_eq_ok (hpart : ModulePart text part rest) :
    Selection.term text = .ok w ↔ ObjectText part rest w := by
  unfold Selection.term
  rw [modulePart_iff.mp hpart]
  dsimp only
  have hname : ∀ {letter : Char} {kind : String → WirePattern} (glob : List Char),
      NameKind letter kind → ((SelectionWord.term (part.map String.ofList) ∘ some) <$>
        namePattern kind glob = .ok w ↔ ObjectText part (letter :: ':' :: glob) w) := by
    intro letter kind glob hkind
    have hhas : HasKind (letter :: ':' :: glob) := ⟨letter, by cases hkind <;> decide, glob, rfl⟩
    rw [objectText_of_kind hhas, Text.map_eq_ok]
    simp only [kindText_name hkind, Function.comp_apply]
  split
  · exact hname _ .wire
  · exact hname _ .input
  · exact hname _ .output
  · exact hname _ .port
  · rename_i text'
    have hhas : HasKind ('a' :: ':' :: text') := ⟨'a', by decide, text', rfl⟩
    rw [objectText_of_kind hhas, Text.map_eq_ok]
    simp only [attributePattern_eq_ok, Function.comp_apply]
  · -- without a kind, it depends on the module part whether modules or wires are meant
    rename_i hw hi ho hx ha
    have hnone : ¬ HasKind rest := by
      rintro ⟨kind, hmem, after, rfl⟩
      fin_cases hmem
      · exact hw after rfl
      · exact hi after rfl
      · exact ho after rfl
      · exact hx after rfl
      · exact ha after rfl
    cases part with
    | none =>
      rw [if_pos (by rfl), objectText_of_noKind_none hnone, Except.ok.injEq]
    | some part =>
      rw [if_neg (by simp), Text.map_eq_ok, objectText_of_noKind_some hnone]
      constructor
      · rintro ⟨_, hpattern, rfl⟩
        obtain ⟨hne, rfl⟩ := namePattern_eq_ok.mp hpattern
        exact ⟨hne, rfl⟩
      · rintro ⟨hne, rfl⟩
        exact ⟨_, namePattern_eq_ok.mpr ⟨hne, rfl⟩, rfl⟩

theorem word_of_head (h : text.head? ≠ some '%') : word text = Selection.term text := by
  unfold word
  split
  · exact absurd rfl h
  · exact absurd rfl h
  · exact absurd rfl h
  · exact absurd rfl h
  · rfl

theorem written_of_word (h : word text = .ok w) : Written text w := by
  by_cases hop : text.head? = some '%'
  · obtain ⟨rest, rfl⟩ := List.head?_eq_some_iff.mp hop
    unfold word at h
    split at h
    · rename_i he
      cases h
      exact he ▸ .operator .union
    · rename_i he
      cases h
      exact he ▸ .operator .intersection
    · rename_i he
      cases h
      exact he ▸ .operator .difference
    · cases h
    · rename_i hno
      exact absurd rfl (hno rest)
  · rw [word_of_head hop] at h
    have hpart := modulePart_iff.mpr (Prod.eta (modulePart text)).symm
    exact .term hop hpart ((term_eq_ok hpart).mp h)

theorem word_eq_ok : word text = .ok w ↔ Written text w := by
  refine ⟨written_of_word, fun h => ?_⟩
  cases h with
  | operator hletter => cases hletter <;> rfl
  | term hop hpart hobject => rw [word_of_head hop, term_eq_ok hpart]; exact hobject

/-! ## Operands -/

/-- Every operator has at least two entries before it on the stack, on which some lie already: each
term before it has put one there, and each operator has made one of two. -/
def OperandsReady (depth : Nat) (words : List SelectionWord) : Prop :=
  ∀ before w after, words = before ++ w :: after → w.isOperator = true →
    before.countP (·.isOperator) + 2 ≤ before.countP (!·.isOperator) + depth

theorem depthAfter_eq_some {depth depth' : Nat} : depthAfter depth w = some depth' ↔
    (w.isOperator = true → 2 ≤ depth) ∧
      depth' = if w.isOperator then depth - 1 else depth + 1 := by
  cases w with
  | term part object => simp [depthAfter, SelectionWord.isOperator, eq_comm]
  | union | intersection | difference =>
    by_cases h : depth < 2
    · simp [depthAfter, SelectionWord.isOperator, h]
    · simp [depthAfter, SelectionWord.isOperator, h, Nat.le_of_not_lt h, eq_comm]

theorem operandsReady_cons {depth : Nat} {ws : List SelectionWord} :
    OperandsReady depth (w :: ws) ↔
      ∃ depth', depthAfter depth w = some depth' ∧ OperandsReady depth' ws := by
  simp only [depthAfter_eq_some]
  constructor
  · intro h
    have hfirst : w.isOperator = true → 2 ≤ depth := fun hop => by simpa using h [] w ws rfl hop
    refine ⟨_, ⟨hfirst, rfl⟩, fun before w' after he hop => ?_⟩
    have hlater := h (w :: before) w' after (he ▸ rfl) hop
    rw [List.countP_cons, List.countP_cons] at hlater
    cases hw : w.isOperator with
    | true =>
      have := hfirst hw
      simp only [hw, Bool.not_true, Bool.false_eq_true, if_true, if_false] at hlater ⊢
      omega
    | false =>
      simp only [hw, Bool.not_false, Bool.false_eq_true, if_true, if_false] at hlater ⊢
      omega
  · rintro ⟨_, ⟨hfirst, rfl⟩, h⟩ before w' after he hop
    cases before with
    | nil =>
      obtain ⟨rfl, rfl⟩ := List.cons.inj he
      simpa using hfirst hop
    | cons w'' before =>
      obtain ⟨rfl, rfl⟩ := List.cons.inj he
      have hlater := h before w' after rfl hop
      rw [List.countP_cons, List.countP_cons]
      cases hw : w.isOperator with
      | true =>
        have := hfirst hw
        simp only [hw, Bool.not_true, Bool.false_eq_true, if_true, if_false] at hlater ⊢
        omega
      | false =>
        simp only [hw, Bool.not_false, Bool.false_eq_true, if_true, if_false] at hlater ⊢
        omega

theorem readWords_eq_ok {depth : Nat} {texts : List (List Char)} {ws : List SelectionWord} :
    readWords depth texts = .ok ws ↔
      List.Forall₂ Written texts ws ∧ OperandsReady depth ws := by
  induction texts generalizing depth ws with
  | nil =>
    rw [List.forall₂_nil_left_iff]
    constructor
    · intro h
      cases h
      exact ⟨rfl, fun before w after he => by simp at he⟩
    · rintro ⟨rfl, -⟩
      rfl
  | cons text texts ih =>
    constructor
    · intro h
      unfold readWords at h
      cases hword : word text with
      | error fault => simp [hword] at h
      | ok w =>
        cases hdepth : depthAfter depth w with
        | none => simp [hword, hdepth] at h
        | some depth' =>
          simp only [hword, hdepth] at h
          obtain ⟨rest, hrest, rfl⟩ := Text.map_eq_ok.mp h
          obtain ⟨hall, hready⟩ := ih.mp hrest
          exact ⟨.cons (word_eq_ok.mp hword) hall, operandsReady_cons.mpr ⟨depth', hdepth, hready⟩⟩
    · rintro ⟨hall, hready⟩
      cases hall with
      | cons hword hall =>
        obtain ⟨depth', hdepth, hready⟩ := operandsReady_cons.mp hready
        unfold readWords
        simp only [word_eq_ok.mpr hword, hdepth]
        exact Text.map_eq_ok.mpr ⟨_, ih.mpr ⟨hall, hready⟩, rfl⟩

/-- A text is read as a selection exactly if it has words, all of them are terms or operators, and
every operator finds two entries on the stack. -/
theorem parse_eq_ok {text : String} {s : Selection} : parse text = .ok s ↔
    ∃ texts, Text.Spaced text.toList texts ∧ texts ≠ [] ∧
      List.Forall₂ Written texts s.words ∧ OperandsReady 0 s.words := by
  have hwords : parse text = .ok s ↔ readWords 0 (Text.words text.toList) = .ok s.words ∧
      s.words ≠ [] := by
    unfold parse
    cases hread : readWords 0 (Text.words text.toList) with
    | error e => simp
    | ok ws =>
      cases ws with
      | nil =>
        refine iff_of_false (fun h => nomatch h) fun h => h.2 ?_
        exact (Except.ok.inj h.1).symm
      | cons w ws =>
        obtain ⟨words⟩ := s
        simp only [Except.ok.injEq, Selection.mk.injEq]
        refine ⟨fun h => ⟨h, h ▸ List.cons_ne_nil _ _⟩, And.left⟩
  rw [hwords, readWords_eq_ok]
  constructor
  · rintro ⟨⟨hall, hready⟩, hne⟩
    refine ⟨_, Text.spaced_iff.mpr rfl, fun hnil => hne ?_, hall, hready⟩
    rw [hnil] at hall
    exact List.forall₂_nil_left_iff.mp hall
  · rintro ⟨texts, hspaced, hne, hall, hready⟩
    rw [Text.spaced_iff.mp hspaced]
    refine ⟨⟨hall, hready⟩, fun hnil => hne ?_⟩
    rw [hnil] at hall
    exact List.forall₂_nil_right_iff.mp hall

end Selection

end ClockNet

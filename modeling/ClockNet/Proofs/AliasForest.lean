import ClockNet.AliasForest
import ClockNet.Proofs.AliasClasses

/-! # Climbs in an alias forest end

A forest stands for an alias map if from every bit a climb of some length ends at the bit that
the map has for its net (`Stands`). Hanging a passed bit onto the end of its climb makes no climb
longer and leads none elsewhere (`Climbs.shorten`), and hanging one tree onto another is one link
of the map (`Climbs.link`). So every operation ends, and the forest of a list of connections stands
for their alias map (`stands_ofConnections`); what is known of the classes of the map holds of the
forest (`forest_exact`). -/

namespace ClockNet.AliasForest

variable {f : AliasForest} {m : AliasMap} {b p r x : Bit} {n : Nat}

@[simp] theorem parent?_hang (f : AliasForest) (child parent b : Bit) :
    (f.hang child parent).parent? b = if b = child then some parent else f.parent? b := by
  unfold parent? hang
  by_cases h : b = child
  · simp [h]
  · simp [h, Ne.symm h]

/-! ## Climbs -/

/-- In so many steps the climb from a bit ends at another one, which hangs on none. -/
inductive Climbs (f : AliasForest) : Nat → Bit → Bit → Prop where
  | root {b : Bit} (h : f.parent? b = none) : Climbs f 0 b b
  | step {n : Nat} {b p r : Bit} (h : f.parent? b = some p) (hp : Climbs f n p r) :
      Climbs f (n + 1) b r

namespace Climbs

theorem root_parent (h : Climbs f n b r) : f.parent? r = none := by
  induction h with
  | root h => exact h
  | step _ _ ih => exact ih

theorem unique (h : Climbs f n b r) {n' : Nat} {r' : Bit} (h' : Climbs f n' b r') :
    n = n' ∧ r = r' := by
  induction h generalizing n' with
  | root h =>
    cases h' with
    | root => exact ⟨rfl, rfl⟩
    | step h' => rw [h] at h'; cases h'
  | step h _ ih =>
    cases h' with
    | root h' => rw [h] at h'; cases h'
    | step h' hp' =>
      rw [h] at h'
      cases h'
      obtain ⟨rfl, rfl⟩ := ih hp'
      exact ⟨rfl, rfl⟩

theorem climb_eq (h : Climbs f n b r) : f.climb b = some r := by
  induction h with
  | root h => rw [climb, h]
  | step h _ ih => rw [climb, h]; exact ih

/-- On a climb that ends nothing hangs on itself, at whatever distance. -/
theorem not_above (h : Climbs f n b r) :
    ¬ Relation.TransGen (fun x y => f.parent? x = some y) b b := by
  induction h with
  | root h =>
    intro hloop
    obtain ⟨_, hb, -⟩ := Relation.TransGen.head'_iff.mp hloop
    rw [h] at hb
    cases hb
  | step h _ ih =>
    -- what is above a bit of a loop is on the loop as well
    intro hloop
    obtain ⟨_, hb, hrest⟩ := Relation.TransGen.head'_iff.mp hloop
    rw [h] at hb
    cases hb
    exact ih (Relation.TransGen.tail' hrest h)

/-- With a bit of the forest hung onto the end of its climb, no climb gets longer. -/
theorem shorten (hb : Climbs f (n + 1) b r) {k : Nat} {x s : Bit} (h : Climbs f k x s) :
    ∃ k' ≤ k, Climbs (f.hang b r) k' x s := by
  have hr := hb.root_parent
  have hne : ∀ y, f.parent? y = none → (f.hang b r).parent? y = none := by
    intro y hy
    rw [parent?_hang, if_neg, hy]
    intro he
    subst he
    cases hb with
    | step h => rw [hy] at h; cases h
  induction h with
  | root h => exact ⟨0, Nat.le_refl 0, .root (hne _ h)⟩
  | @step k x y s h hy ih =>
    by_cases he : x = b
    · subst he
      obtain ⟨-, rfl⟩ := (Climbs.step h hy).unique hb
      exact ⟨1, Nat.succ_le_succ (Nat.zero_le k),
        .step (by rw [parent?_hang, if_pos rfl]) (.root (hne _ hr))⟩
    · obtain ⟨k', hle, hk'⟩ := ih
      exact ⟨k' + 1, Nat.succ_le_succ hle, .step (by rw [parent?_hang, if_neg he, h]) hk'⟩

/-- With one root hung onto another one, the climbs to it go on to that one. -/
theorem link {child parent : Bit} (hc : f.parent? child = none) (hp : f.parent? parent = none)
    (hne : child ≠ parent) (h : Climbs f n x r) :
    ∃ n', Climbs (f.hang child parent) n' x (if r = child then parent else r) := by
  induction h with
  | @root b h =>
    by_cases he : b = child
    · rw [if_pos he]
      refine ⟨1, .step (by rw [parent?_hang, if_pos he]) (.root ?_)⟩
      rw [parent?_hang, if_neg (Ne.symm hne), hp]
    · rw [if_neg he]
      exact ⟨0, .root (by rw [parent?_hang, if_neg he, h])⟩
  | @step n b p r h _ ih =>
    obtain ⟨n', hn'⟩ := ih
    have hb : b ≠ child := by
      intro he
      rw [he, hc] at h
      cases h
    exact ⟨n' + 1, .step (by rw [parent?_hang, if_neg hb, h]) hn'⟩

end Climbs

/-! ## Forests that stand for alias maps -/

/-- From every bit a climb ends at the bit that stands for its net. -/
def Stands (f : AliasForest) (m : AliasMap) : Prop := ∀ b, ∃ n, Climbs f n b (m.root b)

theorem stands_empty : Stands {} {} := fun _ => ⟨0, .root rfl⟩

namespace Stands

theorem climb_eq (h : Stands f m) (b : Bit) : f.climb b = some (m.root b) := by
  obtain ⟨n, hn⟩ := h b
  exact hn.climb_eq

theorem root_parent (h : Stands f m) (b : Bit) : f.parent? (m.root b) = none := by
  obtain ⟨n, hn⟩ := h b
  exact hn.root_parent

theorem resolve_eq (h : Stands f m) (s : Signal) : f.resolve s = some (m.resolve s) := by
  unfold resolve AliasMap.resolve
  rw [funext h.climb_eq]
  exact List.mapM_pure

theorem compress (h : Stands f m) (hb : Climbs f n b r) :
    ∃ f', f.compress b r = some f' ∧ Stands f' m := by
  induction n using Nat.strongRecOn generalizing f b with
  | ind n ih =>
    rw [AliasForest.compress]
    cases hb with
    | root hb => rw [hb]; exact ⟨f, rfl, h⟩
    | @step k _ p _ hp hclimb =>
      rw [hp]
      dsimp only
      split
      · exact ⟨f, rfl, h⟩
      · have hstep := Climbs.step hp hclimb
        obtain ⟨k', hle, hk'⟩ := hstep.shorten hclimb
        refine ih k' (Nat.lt_succ_of_le hle) (fun x => ?_) hk'
        obtain ⟨j, hj⟩ := h x
        obtain ⟨j', -, hj'⟩ := hstep.shorten hj
        exact ⟨j', hj'⟩

theorem find (h : Stands f m) (b : Bit) :
    ∃ f', f.find b = some (m.root b, f') ∧ Stands f' m := by
  obtain ⟨n, hn⟩ := h b
  obtain ⟨f', hf', hs⟩ := h.compress hn
  refine ⟨f', ?_, hs⟩
  unfold AliasForest.find
  rw [h.climb_eq]
  show (f.compress b (m.root b)).bind _ = _
  rw [hf']
  rfl

theorem hang (h : Stands f m) {child parent : Bit} (hc : f.parent? child = none)
    (hp : f.parent? parent = none) (hne : child ≠ parent) :
    Stands (f.hang child parent) (m.link child parent) := by
  intro x
  obtain ⟨n, hn⟩ := h x
  exact hn.link hc hp hne

theorem join (h : Stands f m) (a b : Bit) :
    ∃ f', f.join a b = some f' ∧ Stands f' (m.join a b) := by
  obtain ⟨f₁, hf₁, h₁⟩ := h.find a
  obtain ⟨f₂, hf₂, h₂⟩ := h₁.find b
  have ha := h₂.root_parent a
  have hb := h₂.root_parent b
  unfold AliasForest.join AliasMap.join
  rw [hf₁]
  show ∃ f', (f₁.find b).bind _ = some f' ∧ _
  rw [hf₂]
  dsimp only [Option.bind_some]
  split
  · exact ⟨f₂, rfl, h₂⟩
  · rename_i hne
    cases (m.root a).isConst with
    | false => exact ⟨_, rfl, h₂.hang ha hb hne⟩
    | true =>
      cases (m.root b).isConst with
      | false => exact ⟨_, rfl, h₂.hang hb ha (Ne.symm hne)⟩
      | true => exact ⟨f₂, rfl, h₂⟩

theorem foldlM_join (h : Stands f m) (pairs : List (Bit × Bit)) :
    ∃ f', pairs.foldlM (fun f p => f.join p.1 p.2) f = some f' ∧
      Stands f' (m.joinAll pairs) := by
  induction pairs generalizing f m with
  | nil => exact ⟨f, rfl, h⟩
  | cons p rest ih =>
    obtain ⟨f₁, hf₁, h₁⟩ := h.join p.1 p.2
    obtain ⟨f', hf', h'⟩ := ih h₁
    refine ⟨f', ?_, h'⟩
    rw [List.foldlM_cons, hf₁]
    exact hf'

end Stands

/-- The forest of connections between signals of one length stands for their alias map. -/
theorem stands_ofConnections {connections : List (Signal × Signal)}
    (h : ∀ c ∈ connections, c.1.length = c.2.length) :
    ∃ f, ofConnections connections = some f ∧ Stands f (.ofConnections connections) := by
  have go : ∀ (cs : List (Signal × Signal)) (f : AliasForest) (m : AliasMap), Stands f m →
      (∀ c ∈ cs, c.1.length = c.2.length) →
      ∃ f', cs.foldlM (fun f c => f.add c.1 c.2) f = some f' ∧
        Stands f' (cs.foldl (fun m c => m.add c.1 c.2) m) := by
    intro cs
    induction cs with
    | nil => intro f m hs _; exact ⟨f, rfl, hs⟩
    | cons c rest ih =>
      intro f m hs hlen
      obtain ⟨f₁, hf₁, h₁⟩ := hs.foldlM_join (c.1.zip c.2)
      obtain ⟨f', hf', h'⟩ := ih f₁ _ h₁ fun d hd => hlen d (List.mem_cons_of_mem _ hd)
      refine ⟨f', ?_, h'⟩
      rw [List.foldlM_cons, add, if_pos (hlen c List.mem_cons_self), hf₁]
      exact hf'
  exact go connections {} {} stands_empty h

/-! ## Classes -/

/-- Nothing hangs on itself, at whatever distance, and constants hang on nothing. So every climb
ends, the one from a constant where it starts. -/
structure Sound (f : AliasForest) : Prop where
  acyclic : ∀ b, ¬ Relation.TransGen (fun x y => f.parent? x = some y) b b
  const_free : ∀ t, f.parent? (.const t) = none
  ends : ∀ b, ∃ r, f.climb b = some r ∧ f.parent? r = none
  const_stays : ∀ t, f.climb (.const t) = some (.const t)

theorem Stands.sound (h : Stands f m) (hm : m.Settled) : Sound f := by
  refine ⟨fun b => ?_, fun t => ?_, fun b => ⟨_, h.climb_eq b, h.root_parent b⟩, fun t => ?_⟩
  · obtain ⟨n, hn⟩ := h b
    exact hn.not_above
  · have hroot := h.root_parent (.const t)
    rwa [hm.root_const] at hroot
  · rw [h.climb_eq, hm.root_const]

/-- Joining nets always ends, in a sound forest. A look-up that shortens its way finds the same
as one that does not, and changes what is found for no bit. Bits for which one bit is found are
joined; and joined bits to which no two constants are joined have one bit found for them, which
is the constant if there is one. What is found is what the alias map gives. -/
theorem forest_exact {connections : List (Signal × Signal)}
    (h : ∀ c ∈ connections, c.1.length = c.2.length) :
    ∃ f, ofConnections connections = some f ∧ f.Sound ∧
      (∀ b, ∃ r f', f.find b = some (r, f') ∧ f.climb b = some r ∧ f'.Sound ∧
        ∀ x, f'.climb x = f.climb x) ∧
      (∀ a b, f.climb a = f.climb b → Joined (AliasMap.pairsOf connections) a b) ∧
      (∀ a b, Joined (AliasMap.pairsOf connections) a b →
        OneConstant (AliasMap.pairsOf connections) a → f.climb a = f.climb b ∧
          ∀ t, Joined (AliasMap.pairsOf connections) a (.const t) →
            f.climb a = some (.const t)) ∧
      ∀ s, f.resolve s = some ((AliasMap.ofConnections connections).resolve s) := by
  obtain ⟨f, hf, hs⟩ := stands_ofConnections h
  have hm := AliasMap.settled_ofConnections connections
  refine ⟨f, hf, hs.sound hm, fun b => ?_, fun a b hab => ?_, fun a b hab hone => ?_,
    hs.resolve_eq⟩
  · obtain ⟨f', hf', hs'⟩ := hs.find b
    refine ⟨_, f', hf', hs.climb_eq b, hs'.sound hm, fun x => ?_⟩
    rw [hs'.climb_eq, hs.climb_eq]
  · rw [hs.climb_eq, hs.climb_eq, Option.some.injEq, AliasMap.ofConnections_eq_joinAll] at hab
    exact AliasMap.joined_of_root_eq hab
  · have hsame : ∀ x, Joined (AliasMap.pairsOf connections) a x → f.climb a = f.climb x := by
      intro x hx
      rw [hs.climb_eq, hs.climb_eq, AliasMap.ofConnections_eq_joinAll,
        AliasMap.root_eq_of_joined hx hone]
    refine ⟨hsame b hab, fun t ht => ?_⟩
    rw [hsame _ ht, hs.climb_eq, hm.root_const]

/-- A chain of wires that is tied to a constant when it is made, and a second constant. -/
def tiedChain : List (Signal × Signal) :=
  [([.wire 2 0, .wire 3 0], [.wire 1 0, .wire 2 0]), ([.wire 1 0], [.wire 0 0]),
    ([.const .one], [.wire 2 0]), ([.wire 3 0], [.const .zero])]

/-- The chain is found to be the first constant, which the second one does not replace. -/
theorem forest_exact_tiedChain : ∃ f, ofConnections tiedChain = some f ∧ f.Sound ∧
    f.resolve [.wire 3 0, .wire 0 0, .wire 4 0, .const .zero] =
      some [.const .one, .const .one, .wire 4 0, .const .zero] := by
  have hlen : ∀ c ∈ tiedChain, c.1.length = c.2.length := by decide
  obtain ⟨f, hf, hs, -, -, -, hresolve⟩ := forest_exact hlen
  refine ⟨f, hf, hs, (hresolve _).trans ?_⟩
  decide

end ClockNet.AliasForest

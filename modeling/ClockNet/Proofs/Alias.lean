import ClockNet.Alias
import Mathlib.Logic.Relation

/-! # What an alias map keeps

An alias map is built by joining pairs of bits, one after another. Joining never splits a net
(`root_joinAll_root`), never leaves a bit that stands for its net pointing elsewhere
(`Settled`), and never confuses bits that a function constant on the joined pairs tells apart
(`joinAll_invariant`). The last fact is the only bound from above that later files need: the
function is chosen to fit the question. -/

namespace ClockNet

/-! ## The equivalence of a list of pairs -/

/-- The equivalence that pairs of bits generate. -/
def Joined (pairs : List (Bit × Bit)) : Bit → Bit → Prop :=
  Relation.EqvGen fun a b => (a, b) ∈ pairs

namespace Joined
variable {pairs pairs' : List (Bit × Bit)} {a b c : Bit}

theorem refl (a : Bit) : Joined pairs a a := Relation.EqvGen.refl a

theorem symm (h : Joined pairs a b) : Joined pairs b a := Relation.EqvGen.symm _ _ h

theorem trans (h : Joined pairs a b) (h' : Joined pairs b c) : Joined pairs a c :=
  Relation.EqvGen.trans _ _ _ h h'

theorem of_mem (h : (a, b) ∈ pairs) : Joined pairs a b := Relation.EqvGen.rel _ _ h

theorem of_eq (h : a = b) : Joined pairs a b := h ▸ refl a

/-- A relation that joins every pair joins whatever the pairs join. -/
theorem lift (hp : ∀ p ∈ pairs, Joined pairs' p.1 p.2) (h : Joined pairs a b) :
    Joined pairs' a b := by
  induction h with
  | rel a b h => exact hp (a, b) h
  | refl a => exact refl a
  | symm _ _ _ ih => exact ih.symm
  | trans _ _ _ _ _ ih ih' => exact ih.trans ih'

theorem mono (hp : ∀ p ∈ pairs, p ∈ pairs') (h : Joined pairs a b) : Joined pairs' a b :=
  lift (fun p hm => of_mem (hp p hm)) h

/-- A function that takes one value on each pair takes one value on joined bits. -/
theorem congr {α : Type _} {f : Bit → α} (hp : ∀ p ∈ pairs, f p.1 = f p.2)
    (h : Joined pairs a b) : f a = f b := by
  induction h with
  | rel a b h => exact hp (a, b) h
  | refl a => rfl
  | symm _ _ _ ih => exact ih.symm
  | trans _ _ _ _ _ ih ih' => exact ih.trans ih'

theorem congr_mem (hp : ∀ p, p ∈ pairs ↔ p ∈ pairs') : Joined pairs a b ↔ Joined pairs' a b :=
  ⟨mono fun p h => (hp p).mp h, mono fun p h => (hp p).mpr h⟩

/-- Pairs that a map sends to one bit join no bits that the map leaves in place, as long as it
moves no bit of the other pairs. -/
theorem retract {extra : List (Bit × Bit)} {f : Bit → Bit}
    (hold : ∀ p ∈ pairs, f p.1 = p.1 ∧ f p.2 = p.2) (hnew : ∀ p ∈ extra, f p.1 = f p.2)
    (ha : f a = a) (hb : f b = b) : Joined (pairs ++ extra) a b ↔ Joined pairs a b := by
  refine ⟨fun h => ?_, mono fun p hp => List.mem_append_left _ hp⟩
  have hmap : ∀ x y, Joined (pairs ++ extra) x y → Joined pairs (f x) (f y) := by
    intro x y hxy
    induction hxy with
    | rel x y hxy =>
      rcases List.mem_append.mp hxy with hxy | hxy
      · obtain ⟨h₁, h₂⟩ := hold _ hxy
        rw [h₁, h₂]
        exact of_mem hxy
      · exact of_eq (hnew _ hxy)
    | refl x => exact refl _
    | symm _ _ _ ih => exact ih.symm
    | trans _ _ _ _ _ ih ih' => exact ih.trans ih'
  have h' := hmap a b h
  rwa [ha, hb] at h'

theorem congr_left (h : Joined pairs a b) : Joined pairs a c ↔ Joined pairs b c :=
  ⟨h.symm.trans, h.trans⟩

theorem congr_right (h : Joined pairs a b) : Joined pairs c a ↔ Joined pairs c b :=
  ⟨fun h' => h'.trans h, fun h' => h'.trans h.symm⟩

end Joined

namespace AliasMap

/-! ## Joining pair by pair -/

def joinAll (m : AliasMap) (pairs : List (Bit × Bit)) : AliasMap :=
  pairs.foldl (fun m p => m.join p.1 p.2) m

def pairsOf (connections : List (Signal × Signal)) : List (Bit × Bit) :=
  connections.flatMap fun c => c.1.zip c.2

@[simp] theorem joinAll_cons (m : AliasMap) (p : Bit × Bit) (pairs : List (Bit × Bit)) :
    m.joinAll (p :: pairs) = (m.join p.1 p.2).joinAll pairs := rfl

theorem joinAll_append (m : AliasMap) (pairs pairs' : List (Bit × Bit)) :
    m.joinAll (pairs ++ pairs') = (m.joinAll pairs).joinAll pairs' :=
  List.foldl_append

theorem ofConnections_eq_joinAll (connections : List (Signal × Signal)) :
    ofConnections connections = ({} : AliasMap).joinAll (pairsOf connections) := by
  have go : ∀ m : AliasMap, connections.foldl (fun m c => m.add c.1 c.2) m =
      m.joinAll (pairsOf connections) := by
    induction connections with
    | nil => intro m; rfl
    | cons c rest ih =>
      intro m
      have hp : pairsOf (c :: rest) = c.1.zip c.2 ++ pairsOf rest := List.flatMap_cons
      rw [List.foldl_cons, ih, hp, joinAll_append]
      rfl
  exact go {}

theorem pairsOf_append (cs cs' : List (Signal × Signal)) :
    pairsOf (cs ++ cs') = pairsOf cs ++ pairsOf cs' :=
  List.flatMap_append

/-! ## Nets stand for themselves -/

/-- Bits that stand for a net stand for themselves, and so do constants. -/
structure Settled (m : AliasMap) : Prop where
  root_root : ∀ b, m.root (m.root b) = m.root b
  root_const : ∀ t, m.root (.const t) = .const t

theorem settled_empty : ({} : AliasMap).Settled := ⟨fun _ => rfl, fun _ => rfl⟩

/-- What joining two bits does: nothing, or one link between two bits that stand for
different nets, the first of which is no constant. -/
theorem join_cases (m : AliasMap) (a b : Bit) :
    (m.join a b = m ∧ (m.root a = m.root b ∨
      ((m.root a).isConst = true ∧ (m.root b).isConst = true))) ∨
    (∃ child parent, m.join a b = m.link child parent ∧ child ≠ parent ∧
      child.isConst = false ∧
      ((child = m.root a ∧ parent = m.root b) ∨ (child = m.root b ∧ parent = m.root a))) := by
  unfold join
  dsimp only
  split
  · rename_i h
    exact .inl ⟨rfl, .inl h⟩
  · rename_i h
    split
    · rename_i ha hb
      exact .inl ⟨rfl, .inr ⟨ha, hb⟩⟩
    · rename_i ha hb
      exact .inr ⟨_, _, rfl, fun he => h he.symm, hb, .inr ⟨rfl, rfl⟩⟩
    · rename_i ha
      exact .inr ⟨_, _, rfl, h, ha, .inl ⟨rfl, rfl⟩⟩

theorem Settled.join {m : AliasMap} (h : m.Settled) (a b : Bit) : (m.join a b).Settled := by
  rcases join_cases m a b with ⟨he, -⟩ | ⟨child, parent, he, hne, hc, hroots⟩
  · rw [he]; exact h
  have hchild : m.root child = child := by
    rcases hroots with ⟨rfl, -⟩ | ⟨rfl, -⟩ <;> exact h.root_root _
  have hparent : m.root parent = parent := by
    rcases hroots with ⟨-, rfl⟩ | ⟨-, rfl⟩ <;> exact h.root_root _
  rw [he]
  refine ⟨fun x => ?_, fun t => ?_⟩
  · by_cases hx : m.root x = child
    · simp only [root_link, hx, if_true, hparent, Ne.symm hne, if_false]
    · simp only [root_link, hx, if_false, h.root_root]
  · rw [root_link, h.root_const, if_neg]
    intro heq
    subst heq
    cases hc

theorem Settled.joinAll {m : AliasMap} (h : m.Settled) (pairs : List (Bit × Bit)) :
    (m.joinAll pairs).Settled := by
  induction pairs generalizing m with
  | nil => exact h
  | cons p rest ih => exact ih (h.join p.1 p.2)

theorem settled_ofConnections (connections : List (Signal × Signal)) :
    (ofConnections connections).Settled :=
  ofConnections_eq_joinAll connections ▸ settled_empty.joinAll _

/-! ## Nets only grow -/

theorem Settled.root_join_root {m : AliasMap} (h : m.Settled) (a b x : Bit) :
    (m.join a b).root (m.root x) = (m.join a b).root x := by
  rcases join_cases m a b with ⟨he, -⟩ | ⟨child, parent, he, -⟩
  · rw [he, h.root_root]
  · rw [he, root_link, root_link, h.root_root]

/-- After more joins a bit is on the net of the bit that stood for it before. -/
theorem Settled.root_joinAll_root {m : AliasMap} (h : m.Settled) (pairs : List (Bit × Bit))
    (x : Bit) : (m.joinAll pairs).root (m.root x) = (m.joinAll pairs).root x := by
  induction pairs generalizing m x with
  | nil => exact h.root_root x
  | cons p rest ih =>
    have hj := h.join p.1 p.2
    rw [joinAll_cons, ← ih hj (m.root x), h.root_join_root, ih hj]

theorem Settled.root_joinAll_congr {m : AliasMap} (h : m.Settled) (pairs : List (Bit × Bit))
    {x y : Bit} (he : m.root x = m.root y) :
    (m.joinAll pairs).root x = (m.joinAll pairs).root y := by
  rw [← h.root_joinAll_root pairs x, he, h.root_joinAll_root]

/-- Two bits that are joined are on one net, unless their nets are two constants. -/
theorem root_join {m : AliasMap} {a b : Bit}
    (hc : (m.root a).isConst = false ∨ (m.root b).isConst = false) :
    (m.join a b).root a = (m.join a b).root b := by
  rcases join_cases m a b with ⟨he, heq | ⟨ha, hb⟩⟩ | ⟨child, parent, he, hne, -, hroots⟩
  · rw [he, heq]
  · rw [ha, hb] at hc
    cases hc <;> contradiction
  · rw [he, root_link, root_link]
    rcases hroots with ⟨rfl, rfl⟩ | ⟨rfl, rfl⟩
    · rw [if_pos rfl, if_neg (Ne.symm hne)]
    · rw [if_neg (Ne.symm hne), if_pos rfl]

/-! ## Nets grow along the joined pairs only -/

/-- A function that the map respects and that takes one value on each joined pair is still
respected after the joins. -/
theorem joinAll_invariant {α : Type _} {f : Bit → α} {m : AliasMap}
    (hm : ∀ x, f (m.root x) = f x) {pairs : List (Bit × Bit)}
    (hp : ∀ p ∈ pairs, f p.1 = f p.2) (x : Bit) : f ((m.joinAll pairs).root x) = f x := by
  induction pairs generalizing m with
  | nil => exact hm x
  | cons p rest ih =>
    refine ih (m := m.join p.1 p.2) ?_ fun q hq => hp q (List.mem_cons_of_mem _ hq)
    intro y
    have hpair : f (m.root p.1) = f (m.root p.2) := by
      rw [hm, hm]; exact hp p List.mem_cons_self
    rcases join_cases m p.1 p.2 with ⟨he, -⟩ | ⟨child, parent, he, -, -, hroots⟩
    · rw [he, hm]
    · rw [he, root_link]
      split
      · rename_i hy
        rw [← hm y, hy]
        rcases hroots with ⟨rfl, rfl⟩ | ⟨rfl, rfl⟩
        · exact hpair.symm
        · exact hpair
      · exact hm y

/-- A joined pair is on one net in the end, if the second bit stood for itself alone and occurs
in no other pair. -/
theorem Settled.root_joinAll_pair {m : AliasMap} (h : m.Settled) {pairs : List (Bit × Bit)}
    {a b : Bit} (hmem : (a, b) ∈ pairs) (hfresh : ∀ x, m.root x = b ↔ x = b)
    (hc : b.isConst = false) (honly : ∀ p ∈ pairs, p.1 ≠ b ∧ (p.2 = b → p.1 = a)) :
    (m.joinAll pairs).root a = (m.joinAll pairs).root b := by
  obtain ⟨pre, post, rfl, hpre⟩ := List.eq_append_cons_of_mem hmem
  -- no pair before this one touches the second bit
  have hstays : ((m.joinAll pre).root b = b) = (b = b) := by
    refine joinAll_invariant (f := (· = b)) (fun x => propext (hfresh x)) ?_ b
    intro p hp
    obtain ⟨hfst, hsnd⟩ := honly p (List.mem_append_left _ hp)
    refine propext (iff_of_false hfst ?_)
    intro he
    have hpair : p = (a, b) := Prod.ext (hsnd he) he
    exact hpre (hpair ▸ hp)
  have hroot : (m.joinAll pre).root b = b := hstays ▸ rfl
  rw [joinAll_append, joinAll_cons]
  refine ((h.joinAll pre).join a b).root_joinAll_congr post (root_join (.inr ?_))
  rw [hroot]
  exact hc

theorem root_invariant {α : Type _} {f : Bit → α} {connections : List (Signal × Signal)}
    (hp : ∀ p ∈ pairsOf connections, f p.1 = f p.2) (x : Bit) :
    f ((ofConnections connections).root x) = f x :=
  ofConnections_eq_joinAll connections ▸ joinAll_invariant (fun _ => rfl) hp x

theorem joined_root_joinAll (pairs : List (Bit × Bit)) (x : Bit) :
    Joined pairs x ((({} : AliasMap).joinAll pairs).root x) := by
  have h : Joined pairs ((({} : AliasMap).joinAll pairs).root x) = Joined pairs x :=
    joinAll_invariant (fun _ => rfl)
      (fun p hp => funext fun c => propext (Joined.of_mem hp).congr_left) x
  exact h ▸ Joined.refl _

theorem joined_root (connections : List (Signal × Signal)) (x : Bit) :
    Joined (pairsOf connections) x ((ofConnections connections).root x) :=
  ofConnections_eq_joinAll connections ▸ joined_root_joinAll _ x

theorem root_of_unconnected {connections : List (Signal × Signal)} {x : Bit}
    (hx : ∀ p ∈ pairsOf connections, p.1 ≠ x ∧ p.2 ≠ x) :
    (ofConnections connections).root x = x := by
  have h : ((ofConnections connections).root x = x) = (x = x) :=
    root_invariant (f := (· = x)) (fun p hp =>
      propext ⟨fun e => ((hx p hp).1 e).elim, fun e => ((hx p hp).2 e).elim⟩) x
  exact h ▸ rfl

/-- A property that the two bits of each connected pair have alike holds of a bit and of the
one that stands for it alike. -/
theorem root_iff {p : Bit → Prop} {connections : List (Signal × Signal)}
    (hp : ∀ q ∈ pairsOf connections, (p q.1 ↔ p q.2)) (x : Bit) :
    p ((ofConnections connections).root x) ↔ p x :=
  iff_of_eq (root_invariant (f := p) (fun q hq => propext (hp q hq)) x)

end AliasMap

end ClockNet

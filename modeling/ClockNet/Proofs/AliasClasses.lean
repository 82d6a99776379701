import ClockNet.Proofs.Alias
import Mathlib.Data.List.Induction

/-! # Which bit stands for a class

Bits that pairs join are on one net as long as no two constants are joined to them
(`root_eq_of_joined`). The bit that stands for such a class depends on the order of the pairs:
where no constant is in the class, it is the one bit that was on the driving side of every pair
that joined two classes into one (`root_eq_self_iff`). That is not always the bit that came first as
a driver: a class that is driven by another one later takes over the bit of that class
(`later_driver_stands`). -/

namespace ClockNet

/-- At most one constant is joined to the bit. -/
def OneConstant (pairs : List (Bit × Bit)) (a : Bit) : Prop :=
  ∀ s t, Joined pairs a (.const s) → Joined pairs a (.const t) → s = t

/-- No constant is joined to the bit. -/
def NoConstant (pairs : List (Bit × Bit)) (a : Bit) : Prop := ∀ t, ¬ Joined pairs a (.const t)

/-- After the pairs before it, a pair joins two classes into one. -/
def JoinsClasses (pairs before : List (Bit × Bit)) (p : Bit × Bit) : Prop :=
  before ++ [p] <+: pairs ∧ ¬ Joined before p.1 p.2

/-- Whenever a pair joined two classes into one, the bit was not in the driven one. -/
def Undriven (pairs : List (Bit × Bit)) (x : Bit) : Prop :=
  ∀ before p, JoinsClasses pairs before p → ¬ Joined before x p.1

/-- The bit of a class that occurs as the driver of a pair before all others of the class. -/
def FirstDriver (pairs : List (Bit × Bit)) (a first : Bit) : Prop :=
  ∃ before driven after, pairs = before ++ (driven, first) :: after ∧ Joined pairs a first ∧
    ∀ p ∈ before, ¬ Joined pairs a p.2

section Classes
variable {pairs : List (Bit × Bit)} {a b x : Bit}

theorem NoConstant.oneConstant (h : NoConstant pairs a) : OneConstant pairs a :=
  fun s _ hs => absurd hs (h s)

theorem OneConstant.joined (h : OneConstant pairs a) (hab : Joined pairs a b) :
    OneConstant pairs b := fun s t hs ht => h s t (hab.trans hs) (hab.trans ht)

theorem NoConstant.joined (h : NoConstant pairs a) (hab : Joined pairs a b) :
    NoConstant pairs b := fun t ht => h t (hab.trans ht)

/-- A bit that is the driver of no pair but with itself, and is joined to another one, is driven
by a pair that joins two classes. -/
theorem exists_driver_of_undriven (h : Undriven pairs x) (hx : Joined pairs x a) (hne : a ≠ x) :
    ∃ p ∈ pairs, p.2 = x := by
  by_contra hnone
  push Not at hnone
  -- no pair can have the bit on its driven side either
  have hout : ∀ before, before <+: pairs → ∀ p ∈ before, (p.1 = x) = (p.2 = x) := by
    intro before
    induction before using List.reverseRecOn with
    | nil => intro _ p hp; cases hp
    | append_singleton before q ih =>
      intro hpre p hp
      have hbefore := ih ((List.prefix_append _ _).trans hpre)
      have hsnd : ∀ p ∈ before ++ [q], p.2 ≠ x := fun p hp => hnone p (hpre.subset hp)
      rcases List.mem_append.mp hp with hp | hp
      · exact hbefore p hp
      · obtain rfl := List.mem_singleton.mp hp
        refine propext (iff_of_false ?_ (hsnd p (by simp)))
        intro he
        refine h before p ⟨hpre, ?_⟩ (Joined.of_eq he.symm)
        intro hj
        have hsame := Joined.congr (f := (· = x)) hbefore hj
        exact hsnd p (by simp) (hsame.mp he)
  have hsame := Joined.congr (f := (· = x)) (hout pairs List.prefix_rfl) hx
  exact hne (hsame.mp rfl)

/-- What one more pair asks of a bit that was never in a driven class. -/
theorem undriven_concat (p : Bit × Bit) : Undriven (pairs ++ [p]) x ↔
    Undriven pairs x ∧ (¬ Joined pairs p.1 p.2 → ¬ Joined pairs x p.1) := by
  constructor
  · intro h
    refine ⟨?_, fun hj => h pairs p ⟨List.prefix_rfl, hj⟩⟩
    intro before q hq
    exact h before q ⟨hq.1.trans (List.prefix_append _ _), hq.2⟩
  · intro h before q hq
    obtain ⟨hpre, hj⟩ := hq
    rcases List.prefix_concat_iff.mp hpre with he | hpre
    · obtain ⟨rfl, hlast⟩ := List.append_inj' he rfl
      obtain rfl := List.singleton_inj.mp hlast
      exact h.2 hj
    · exact h.1 before q ⟨hpre, hj⟩

end Classes

namespace AliasMap
variable {pairs : List (Bit × Bit)} {a b x : Bit}

/-- A pair is on one net in the end, if no two constants are joined to it. -/
theorem root_eq_of_pair {p : Bit × Bit} (hp : p ∈ pairs) (h : OneConstant pairs p.1) :
    (({} : AliasMap).joinAll pairs).root p.1 = (({} : AliasMap).joinAll pairs).root p.2 := by
  obtain ⟨before, after, rfl, -⟩ := List.eq_append_cons_of_mem hp
  have hsettled := settled_empty.joinAll before
  rw [joinAll_append, joinAll_cons]
  by_cases he : (({} : AliasMap).joinAll before).root p.1 =
      (({} : AliasMap).joinAll before).root p.2
  · exact hsettled.root_joinAll_congr (p :: after) he
  · refine (hsettled.join p.1 p.2).root_joinAll_congr after (root_join ?_)
    -- if both nets were constants, these would be one
    by_contra hboth
    simp only [not_or, Bool.not_eq_false] at hboth
    have hbefore : ∀ x, Joined (before ++ p :: after) x
        ((({} : AliasMap).joinAll before).root x) := fun x =>
      (joined_root_joinAll before x).mono fun q hq => List.mem_append_left _ hq
    have hfst := hbefore p.1
    have hsnd := (Joined.of_mem hp).trans (hbefore p.2)
    cases hs : (({} : AliasMap).joinAll before).root p.1 with
    | wire id i => rw [hs] at hboth; cases hboth.1
    | const s =>
      cases ht : (({} : AliasMap).joinAll before).root p.2 with
      | wire id i => rw [ht] at hboth; cases hboth.2
      | const t =>
        rw [hs] at hfst
        rw [ht] at hsnd
        exact he (by rw [hs, ht, h s t hfst hsnd])

theorem root_eq_of_joined (hab : Joined pairs a b) (h : OneConstant pairs a) :
    (({} : AliasMap).joinAll pairs).root a = (({} : AliasMap).joinAll pairs).root b := by
  induction hab with
  | rel a b hab => exact root_eq_of_pair hab h
  | refl a => rfl
  | symm a b hab ih => exact (ih (h.joined (Joined.symm hab))).symm
  | trans a b c hab _ ih ih' => exact (ih h).trans (ih' (h.joined hab))

theorem join_of_not_const {m : AliasMap} (hc : (m.root a).isConst = false)
    (hne : m.root a ≠ m.root b) : m.join a b = m.link (m.root a) (m.root b) := by
  unfold join
  simp only [if_neg hne, hc]

theorem root_join_of_const {m : AliasMap} (hc : (m.root a).isConst = true)
    (hb : m.root x ≠ m.root b) : (m.join a b).root x = m.root x := by
  rcases join_cases m a b with ⟨he, -⟩ | ⟨child, parent, he, -, hchild, hroots⟩
  · rw [he]
  · rw [he, root_link, if_neg]
    rcases hroots with ⟨rfl, -⟩ | ⟨rfl, -⟩
    · rw [hc] at hchild
      cases hchild
    · exact hb

theorem joined_of_root_eq (h : (({} : AliasMap).joinAll pairs).root a =
    (({} : AliasMap).joinAll pairs).root b) : Joined pairs a b := by
  have ha := joined_root_joinAll pairs a
  rw [h] at ha
  exact ha.trans (joined_root_joinAll pairs b).symm

/-- A bit of a class without constants stands for it exactly if it was never in a driven class. -/
theorem root_eq_self_iff (h : NoConstant pairs x) :
    (({} : AliasMap).joinAll pairs).root x = x ↔ Undriven pairs x := by
  induction pairs using List.reverseRecOn with
  | nil =>
    refine iff_of_true rfl ?_
    intro before p hp
    have hnil := List.prefix_nil.mp hp.1
    simp at hnil
  | append_singleton pairs p ih =>
    have hmono : ∀ {y z}, Joined pairs y z → Joined (pairs ++ [p]) y z :=
      Joined.mono fun q hq => List.mem_append_left _ hq
    have hbefore : NoConstant pairs x := fun t ht => h t (hmono ht)
    have hpair : Joined (pairs ++ [p]) p.2 p.1 := (Joined.of_mem (by simp)).symm
    rw [undriven_concat, ← ih hbefore, joinAll_append, joinAll_cons]
    show (((({} : AliasMap).joinAll pairs).join p.1 p.2).root x = x) ↔ _
    generalize hm : ({} : AliasMap).joinAll pairs = m
    have hroot : ∀ {y z}, m.root y = m.root z → Joined pairs y z := fun he =>
      joined_of_root_eq (hm ▸ he)
    have hsame : ∀ {y z}, NoConstant pairs y → Joined pairs y z → m.root y = m.root z :=
      fun hy hyz => hm ▸ root_eq_of_joined hyz hy.oneConstant
    by_cases he : m.root p.1 = m.root p.2
    · have hjoin : m.join p.1 p.2 = m := if_pos he
      rw [hjoin]
      exact (and_iff_left fun hj => absurd (hroot he) hj).symm
    · cases hc : (m.root p.1).isConst with
      | true =>
        -- the class of the bit is neither the one with the constant nor the one that joins it
        have hfst : ¬ Joined (pairs ++ [p]) x p.1 := by
          intro hx
          cases hr : m.root p.1 with
          | wire id i => rw [hr] at hc; cases hc
          | const t =>
            have hj := joined_root_joinAll pairs p.1
            rw [hm, hr] at hj
            exact h t (hx.trans (hmono hj))
        have hsnd : m.root x ≠ m.root p.2 := fun hx =>
          hfst ((hmono (hroot hx)).trans hpair)
        rw [root_join_of_const hc hsnd]
        exact (and_iff_left fun _ hx => hfst (hmono hx)).symm
      | false =>
        rw [join_of_not_const hc he, root_link]
        by_cases hx : Joined pairs x p.1
        · have hj : ¬ Joined pairs p.1 p.2 := fun hj => he (hsame (hbefore.joined hx) hj)
          rw [if_pos (hsame hbefore hx)]
          refine iff_of_false ?_ fun hand => hand.2 hj hx
          intro hx'
          have hdriver := joined_root_joinAll pairs p.2
          rw [hm, hx'] at hdriver
          exact hj (hx.symm.trans hdriver.symm)
        · rw [if_neg fun hx' => hx (hroot hx')]
          exact (and_iff_left fun _ => hx).symm

/-! ## The bit of a class -/

/-- A class of more than one bit has a driver that comes first. -/
theorem exists_firstDriver (hx : Joined pairs a x) (hne : x ≠ a) :
    ∃ first, FirstDriver pairs a first := by
  classical
  cases hf : pairs.find? fun p => decide (Joined pairs a p.2) with
  | some p =>
    obtain ⟨hp, before, after, he, hbefore⟩ := List.find?_eq_some_iff_append.mp hf
    refine ⟨p.2, before, p.1, after, he, of_decide_eq_true hp, fun q hq hj => ?_⟩
    have hq' := hbefore q hq
    simp [hj] at hq'
  | none =>
    -- without a driver the bit is in no pair, and so alone
    have hnone : ∀ p ∈ pairs, ¬ Joined pairs a p.2 := fun p hp => by
      simpa using List.find?_eq_none.mp hf p hp
    have hout : ∀ p ∈ pairs, (p.1 = a) = (p.2 = a) := by
      intro p hp
      refine propext (iff_of_false (fun he => ?_) fun he => ?_)
      · exact hnone p hp (he ▸ Joined.of_mem hp)
      · exact hnone p hp (Joined.of_eq he.symm)
    have hsame := Joined.congr (f := (· = a)) hout hx
    exact absurd (hsame.mp rfl) hne

/-- The bit that stands for a class without constants is a driver, and the only bit of the class
that was never in a driven one. So it is the first driver of the class exactly if no pair that
joined two classes had that driver in the driven one. -/
theorem standing_bit {connections : List (Signal × Signal)}
    (hc : NoConstant (pairsOf connections) a)
    (hmany : ∃ x, x ≠ a ∧ Joined (pairsOf connections) a x) :
    (∃ p ∈ pairsOf connections, p.2 = (ofConnections connections).root a) ∧
    (∀ x, Joined (pairsOf connections) a x →
      ((ofConnections connections).root a = x ↔ Undriven (pairsOf connections) x)) ∧
    (∃ first, FirstDriver (pairsOf connections) a first) ∧
    ∀ first, FirstDriver (pairsOf connections) a first →
      ((ofConnections connections).root a = first ↔ Undriven (pairsOf connections) first) := by
  rw [ofConnections_eq_joinAll]
  generalize pairsOf connections = pairs at hc hmany
  have hclass : ∀ x, Joined pairs a x →
      ((({} : AliasMap).joinAll pairs).root a = x ↔ Undriven pairs x) := by
    intro x hx
    rw [root_eq_of_joined hx hc.oneConstant]
    exact root_eq_self_iff (hc.joined hx)
  have hroot := joined_root_joinAll pairs a
  have hundriven := (hclass _ hroot).mp rfl
  obtain ⟨x, hne, hx⟩ := hmany
  refine ⟨?_, hclass, exists_firstDriver hx hne, fun first hf => ?_⟩
  · -- the class has a bit besides the one that stands for it
    by_cases he : (({} : AliasMap).joinAll pairs).root a = a
    · rw [he] at hundriven ⊢
      exact exists_driver_of_undriven hundriven hx hne
    · exact exists_driver_of_undriven hundriven hroot.symm (Ne.symm he)
  · obtain ⟨-, -, -, -, hj, -⟩ := hf
    exact hclass first hj

/-! ## Chains of wires -/

/-- Each wire drives the next one, and the connections are made from the driver on. -/
def driverFirst : List (Signal × Signal) :=
  [([.wire 1 0], [.wire 0 0]), ([.wire 2 0], [.wire 1 0])]

/-- The same connections, made from the last wire on. -/
def driverLast : List (Signal × Signal) :=
  [([.wire 2 0], [.wire 1 0]), ([.wire 1 0], [.wire 0 0])]

theorem noConstant_of_wires {pairs : List (Bit × Bit)} (h : ∀ p ∈ pairs,
    p.1.isConst = false ∧ p.2.isConst = false) (id : WireId) (i : Nat) :
    NoConstant pairs (.wire id i) := by
  intro t ht
  have hsame := Joined.congr (f := Bit.isConst)
    (fun p hp => (h p hp).1.trans (h p hp).2.symm) ht
  cases hsame

/-- Made from the driver on, the chain is stood for by its first driver. -/
theorem standing_bit_driverFirst : NoConstant (pairsOf driverFirst) (.wire 2 0) ∧
    FirstDriver (pairsOf driverFirst) (.wire 2 0) (.wire 0 0) ∧
    (ofConnections driverFirst).root (.wire 2 0) = .wire 0 0 ∧
    Undriven (pairsOf driverFirst) (.wire 0 0) := by
  have hc : NoConstant (pairsOf driverFirst) (.wire 2 0) := noConstant_of_wires (by decide) 2 0
  have hone : Joined (pairsOf driverFirst) (.wire 2 0) (.wire 1 0) := .of_mem (by decide)
  have hzero : Joined (pairsOf driverFirst) (.wire 2 0) (.wire 0 0) :=
    hone.trans (.of_mem (by decide))
  have hroot : (ofConnections driverFirst).root (.wire 2 0) = .wire 0 0 := by decide
  have hfirst : FirstDriver (pairsOf driverFirst) (.wire 2 0) (.wire 0 0) :=
    ⟨[], .wire 1 0, [(.wire 2 0, .wire 1 0)], rfl, hzero, fun p hp => by cases hp⟩
  obtain ⟨-, -, -, hiff⟩ := standing_bit hc ⟨.wire 1 0, by decide, hone⟩
  exact ⟨hc, hfirst, hroot, (hiff _ hfirst).mp hroot⟩

/-- Made from the last wire on, the chain is stood for by a later driver than its first. -/
theorem later_driver_stands : NoConstant (pairsOf driverLast) (.wire 2 0) ∧
    (∃ x, x ≠ .wire 2 0 ∧ Joined (pairsOf driverLast) (.wire 2 0) x) ∧
    FirstDriver (pairsOf driverLast) (.wire 2 0) (.wire 1 0) ∧
    (ofConnections driverLast).root (.wire 2 0) = .wire 0 0 ∧
    Bit.wire 0 0 ≠ .wire 1 0 := by
  have hone : Joined (pairsOf driverLast) (.wire 2 0) (.wire 1 0) := .of_mem (by decide)
  refine ⟨noConstant_of_wires (by decide) 2 0, ⟨.wire 1 0, by decide, hone⟩, ?_, by decide,
    by decide⟩
  exact ⟨[], .wire 2 0, [(.wire 1 0, .wire 0 0)], rfl, hone, fun p hp => by cases hp⟩

end AliasMap

end ClockNet

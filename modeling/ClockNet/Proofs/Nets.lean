import ClockNet.Proofs.Connectivity
import ClockNet.Proofs.Publication

/-! # The nets of a finished module

A finished module has the connections of the start and those of the copies, each of which joins
a new bit. So the nets of the own bits are what they were (`netOf_complete_iff`); a copy is on
the net of its port, or, where a cell has been placed on that net, on the wire that feeds the
cell (`netOf_complete_copy`); and a wire that feeds a cell is on no net of the start
(`netOf_complete_feed`). -/

namespace ClockNet.Buffering

open Insertion

theorem mem_pairsOf_copyConnections {m : Module} {replaced : List (WireId × WireId)}
    {target : WireId → Nat → Bit} {p : Bit × Bit} :
    p ∈ AliasMap.pairsOf (copyConnections m replaced target) ↔ ∃ q ∈ replaced,
      ∃ i < (m.wire q.1).width, p = (target q.2 i, .wire q.2 i) := by
  unfold AliasMap.pairsOf copyConnections
  rw [List.flatMap_assoc]
  simp only [List.mem_flatMap, List.mem_map, List.mem_range]
  constructor
  · intro h
    obtain ⟨q, hq, c, ⟨i, hi, rfl⟩, hp⟩ := h
    exact ⟨q, hq, i, hi, List.mem_singleton.mp hp⟩
  · intro h
    obtain ⟨q, hq, i, hi, rfl⟩ := h
    exact ⟨q, hq, _, ⟨i, hi, rfl⟩, List.mem_singleton.mpr rfl⟩

section
variable {e : Scene} {s : Insertion}

/-- The bits that the bits of copies are connected to are no bits of copies. -/
structure Targets (e : Scene) (s : Insertion) (target : WireId → Nat → Bit) : Prop where
  cases : ∀ q ∈ s.replaced, ∀ i, target q.2 i = .wire q.1 i ∨
    ∃ p, (e.aliases.root (.wire q.1 i), p) ∈ s.placed ∧ target q.2 i = .wire p.feed 0
  ne_copy : ∀ q ∈ s.replaced, ∀ i, ∀ r ∈ s.replaced, ∀ j, target q.2 i ≠ .wire r.2 j

/-- The nets in the end: those of the start, joined with the connections of the copies. -/
theorem netOf_complete_eq (hs : s.Fresh) (ha : e.aliases = .ofConnections s.module.connections) :
    ∃ target, Targets e (s.inserted e) target ∧ ∀ x, netOf (s.complete e).module x =
      (e.aliases.joinAll (AliasMap.pairsOf
        (copyConnections s.module (s.inserted e).replaced target))).root x := by
  have hf := fitted_inserted (e := e) hs
  obtain ⟨target, hconn, htarget⟩ := hf.copies
  refine ⟨target, ⟨htarget, ?_⟩, ?_⟩
  · intro q hq i r hr j he
    have hnew := (hf.replaced r hr).2.1
    rcases htarget q hq i with ht | ⟨p, hp, ht⟩
    · rw [ht] at he
      have hold := lt_of_mem_replaced hs hq
      rw [(Bit.wire.inj he).1] at hold
      exact absurd hold (Nat.not_lt.mpr hnew)
    · rw [ht] at he
      refine (hf.placed _ p hp).isFeed.not_copy ?_
      rw [(Bit.wire.inj he).1]
      exact List.mem_map_of_mem hr
  · intro x
    unfold netOf
    rw [complete_connections, hconn, AliasMap.ofConnections_eq_joinAll, AliasMap.pairsOf_append,
      AliasMap.joinAll_append, ← AliasMap.ofConnections_eq_joinAll, ← ha]

theorem netOf_complete_root (hs : s.Fresh)
    (ha : e.aliases = .ofConnections s.module.connections) (x : Bit) :
    netOf (s.complete e).module (netOf s.module x) = netOf (s.complete e).module x := by
  obtain ⟨target, -, hnet⟩ := netOf_complete_eq hs ha
  have hsettled : e.aliases.Settled := ha ▸ AliasMap.settled_ofConnections _
  rw [hnet, hnet]
  unfold netOf
  rw [← ha, hsettled.root_joinAll_root]

/-- The bits that the bits of copies are connected to, in the place of them. -/
def backOf (replaced : List (WireId × WireId)) (target : WireId → Nat → Bit) : Bit → Bit
  | .const t => .const t
  | .wire id i => if id ∈ replaced.map Prod.snd then target id i else .wire id i

theorem backOf_copy {replaced : List (WireId × WireId)} {q : WireId × WireId} (hq : q ∈ replaced)
    (target : WireId → Nat → Bit) (i : Nat) :
    backOf replaced target (.wire q.2 i) = target q.2 i := if_pos (List.mem_map_of_mem hq)

theorem backOf_other {replaced : List (WireId × WireId)} (target : WireId → Nat → Bit) {x : Bit}
    (hx : ∀ q ∈ replaced, ∀ j, x ≠ .wire q.2 j) : backOf replaced target x = x := by
  cases x with
  | const t => rfl
  | wire id i =>
    refine if_neg ?_
    intro hmem
    obtain ⟨q, hq, rfl⟩ := List.mem_map.mp hmem
    exact hx q hq i rfl

/-- What tells the nets in the end apart: the net at the start, where a bit of a copy counts as
the bit that it is connected to. -/
theorem exists_netOf_invariant (hs : s.Fresh) (hm : s.module.WellFormed)
    (ha : e.aliases = .ofConnections s.module.connections) : ∃ f : Bit → Bit,
      (∀ x, f (netOf (s.complete e).module x) = f x) ∧
      (∀ x, s.module.Owns x → f x = netOf s.module x) ∧
      ∀ id i, IsFeed s.module (s.inserted e) id → f (.wire id i) = .wire id i := by
  obtain ⟨target, htarget, hnet⟩ := netOf_complete_eq (e := e) hs ha
  have hf := fitted_inserted (e := e) hs
  have hown : ∀ x, s.module.Owns x → backOf (s.inserted e).replaced target x = x := by
    intro x hx
    refine backOf_other target ?_
    intro q hq j heq
    subst heq
    exact Module.not_owns (hf.replaced q hq).2.1 j hx
  refine ⟨fun x => e.aliases.root (backOf (s.inserted e).replaced target x), ?_, ?_, ?_⟩
  · intro x
    rw [hnet]
    refine AliasMap.joinAll_invariant
      (f := fun x => e.aliases.root (backOf (s.inserted e).replaced target x)) ?_ ?_ x
    · intro y
      by_cases hy : s.module.Owns y
      · have hroot : s.module.Owns (e.aliases.root y) := by
          rw [ha]
          exact (hm.owns_root y).mpr hy
        rw [hown _ hroot, hown y hy, ha]
        exact (AliasMap.settled_ofConnections _).root_root y
      · rw [root_of_not_owns hm ha hy]
    · intro p hp
      obtain ⟨q, hq, i, -, rfl⟩ := mem_pairsOf_copyConnections.mp hp
      dsimp only
      rw [backOf_other target (htarget.ne_copy q hq i), backOf_copy hq]
  · intro x hx
    dsimp only
    rw [hown x hx, ha]
    rfl
  · intro id i hfeed
    have hkeep : backOf (s.inserted e).replaced target (.wire id i) = .wire id i := by
      refine backOf_other target ?_
      intro q hq j he
      refine hfeed.not_copy ?_
      rw [(Bit.wire.inj he).1]
      exact List.mem_map_of_mem hq
    dsimp only
    rw [hkeep]
    exact root_of_not_owns hm ha (Module.not_owns hfeed.new i)

/-- The nets of the own bits are what they were. -/
theorem netOf_complete_iff (hs : s.Fresh) (hm : s.module.WellFormed)
    (ha : e.aliases = .ofConnections s.module.connections) {x y : Bit} (hx : s.module.Owns x)
    (hy : s.module.Owns y) :
    netOf (s.complete e).module x = netOf (s.complete e).module y ↔
      netOf s.module x = netOf s.module y := by
  obtain ⟨f, hnet, hown, -⟩ := exists_netOf_invariant (e := e) hs hm ha
  constructor
  · intro h
    rw [← hown x hx, ← hown y hy, ← hnet x, ← hnet y, h]
  · intro h
    rw [← netOf_complete_root hs ha x, h, netOf_complete_root hs ha]

theorem netOf_complete_feed (hs : s.Fresh) (hm : s.module.WellFormed)
    (ha : e.aliases = .ofConnections s.module.connections) {x : Bit} (hx : s.module.Owns x)
    {id : WireId} (hfeed : IsFeed s.module (s.inserted e) id) (i : Nat) :
    netOf (s.complete e).module x ≠ netOf (s.complete e).module (.wire id i) := by
  obtain ⟨f, hnet, hown, hnew⟩ := exists_netOf_invariant (e := e) hs hm ha
  intro he
  have hroot : netOf s.module x = .wire id i := by
    rw [← hown x hx, ← hnet x, he, hnet, hnew id i hfeed]
  refine Module.not_owns hfeed.new i ?_
  rw [← hroot]
  exact (hm.owns_root x).mpr hx

/-- A copy is on the net of its port, or on the wire that feeds the cell placed there. -/
theorem netOf_complete_copy (hs : s.Fresh) (hm : s.module.WellFormed)
    (ha : e.aliases = .ofConnections s.module.connections) {q : WireId × WireId}
    (hq : q ∈ (s.inserted e).replaced) {i : Nat} (hi : i < (s.module.wire q.1).width) :
    netOf (s.complete e).module (.wire q.2 i) = netOf (s.complete e).module (.wire q.1 i) ∨
    ∃ p, (netOf s.module (.wire q.1 i), p) ∈ (s.inserted e).placed ∧
      netOf (s.complete e).module (.wire q.2 i) =
        netOf (s.complete e).module (.wire p.feed 0) := by
  obtain ⟨target, htarget, hnet⟩ := netOf_complete_eq (e := e) hs ha
  have hsettled : e.aliases.Settled := ha ▸ AliasMap.settled_ofConnections _
  have hf := fitted_inserted (e := e) hs
  have hnew := Module.not_owns (hf.replaced q hq).2.1 i
  have hjoin : netOf (s.complete e).module (target q.2 i) =
      netOf (s.complete e).module (.wire q.2 i) := by
    rw [hnet, hnet]
    refine hsettled.root_joinAll_pair ?_ ?_ rfl ?_
    · exact mem_pairsOf_copyConnections.mpr ⟨q, hq, i, hi, rfl⟩
    · intro x
      constructor
      · intro hroot
        by_cases hx : s.module.Owns x
        · rw [ha] at hroot
          exact absurd (hroot ▸ (hm.owns_root x).mpr hx) hnew
        · rwa [root_of_not_owns hm ha hx] at hroot
      · intro heq
        subst heq
        exact root_of_not_owns hm ha hnew
    · intro p hp
      obtain ⟨r, hr, j, -, rfl⟩ := mem_pairsOf_copyConnections.mp hp
      refine ⟨htarget.ne_copy r hr j q hq i, ?_⟩
      intro he
      obtain ⟨hid, hj⟩ := Bit.wire.inj he
      dsimp only
      rw [hid, hj]
  rcases htarget.cases q hq i with he | ⟨p, hp, he⟩
  · rw [he] at hjoin
    exact .inl hjoin.symm
  · rw [he] at hjoin
    refine .inr ⟨p, ?_, hjoin.symm⟩
    rw [ha] at hp
    exact hp

end

end ClockNet.Buffering

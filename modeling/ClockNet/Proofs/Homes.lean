import ClockNet.Proofs.Anchors
import Mathlib.Data.List.Induction
import Mathlib.Data.List.Nodup

/-! # Homes of nets

The home of a net is its constant or, of the bits of wires on it, the first. Two bits of a module
have one home exactly if they are on one net (`homeOf_inj`). Tying every bit of a wire to its home
makes anchored ties (`anchored_homes`), so the connections that result have the same nets, and
their homes stand for them. -/

namespace ClockNet.Module

/-- All bits of wires, in the order of the wires. -/
def places (m : Module) : Signal := m.wireIds.flatMap m.wireSignal

def aliases (m : Module) : AliasMap := .ofConnections m.connections

/-- The constant of the net of a bit, or the first bit of a wire on the net. -/
def homeOf (m : Module) (b : Bit) : Bit :=
  match m.aliases.root b with
  | .const t => .const t
  | r => (m.places.find? fun p => m.aliases.root p == r).getD r

variable {m : Module} {b b' p q : Bit}

/-! ## Bits of wires -/

theorem mem_places : b ∈ m.places ↔ m.HasBit b ∧ b.isConst = false := by
  unfold places wireIds wireSignal Signal.ofWire
  simp only [List.mem_flatMap, List.mem_range, List.mem_map]
  constructor
  · rintro ⟨id, -, i, hi, rfl⟩
    exact ⟨hi, rfl⟩
  · rintro ⟨hb, hc⟩
    cases b with
    | const t => cases hc
    | wire id i => exact ⟨id, lt_of_place hb, i, hb, rfl⟩

theorem nodup_places (m : Module) : m.places.Nodup := by
  unfold places wireIds wireSignal Signal.ofWire
  rw [List.nodup_flatMap]
  refine ⟨fun id _ => List.nodup_range.map fun i j h => (Bit.wire.inj h).2, ?_⟩
  refine List.nodup_range.imp ?_
  intro id id' hne b hb hb'
  obtain ⟨i, -, rfl⟩ := List.mem_map.mp hb
  obtain ⟨j, -, he⟩ := List.mem_map.mp hb'
  exact hne (Bit.wire.inj he).1.symm

/-! ## Homes -/

theorem settled_aliases (m : Module) : m.aliases.Settled := AliasMap.settled_ofConnections _

theorem homeOf_congr (h : m.aliases.root b = m.aliases.root b') : m.homeOf b = m.homeOf b' := by
  unfold homeOf
  rw [h]

theorem homeOf_of_root_const {t : Trit} (h : m.aliases.root b = .const t) :
    m.homeOf b = .const t := by
  unfold homeOf
  rw [h]

@[simp] theorem homeOf_const (m : Module) (t : Trit) : m.homeOf (.const t) = .const t :=
  homeOf_of_root_const (m.settled_aliases.root_const t)

theorem homeOf_of_root (h : (m.aliases.root b).isConst = false) : m.homeOf b =
    (m.places.find? fun p => m.aliases.root p == m.aliases.root b).getD (m.aliases.root b) := by
  unfold homeOf
  cases hr : m.aliases.root b with
  | const t =>
    rw [hr] at h
    cases h
  | wire id i => rfl

/-- A bit of a module whose net is no constant has a bit of a wire for its home. -/
theorem find?_home (hb : m.HasBit b) (hr : (m.aliases.root b).isConst = false) :
    (m.places.find? fun p => m.aliases.root p == m.aliases.root b) = some (m.homeOf b) := by
  have hplace : b ∈ m.places := by
    refine mem_places.mpr ⟨hb, ?_⟩
    cases b with
    | const t =>
      rw [m.settled_aliases.root_const] at hr
      cases hr
    | wire id i => rfl
  have hsome : (m.places.find? fun p => m.aliases.root p == m.aliases.root b).isSome := by
    rw [List.find?_isSome]
    exact ⟨b, hplace, by simp⟩
  obtain ⟨q, hq⟩ := Option.isSome_iff_exists.mp hsome
  rw [homeOf_of_root hr, hq]
  rfl

theorem root_homeOf (hb : m.HasBit b) : m.aliases.root (m.homeOf b) = m.aliases.root b := by
  cases hr : m.aliases.root b with
  | const t => rw [homeOf_of_root_const hr, m.settled_aliases.root_const]
  | wire id i =>
    have hfind := find?_home hb (by rw [hr]; rfl)
    rw [← hr]
    simpa using List.find?_some hfind

theorem homeOf_homeOf (hb : m.HasBit b) : m.homeOf (m.homeOf b) = m.homeOf b :=
  homeOf_congr (root_homeOf hb)

theorem hasBit_homeOf (hb : m.HasBit b) : m.HasBit (m.homeOf b) := by
  cases hr : m.aliases.root b with
  | const t =>
    rw [homeOf_of_root_const hr]
    trivial
  | wire id i =>
    have hfind := find?_home hb (by rw [hr]; rfl)
    exact (mem_places.mp (List.mem_of_find?_eq_some hfind)).1

/-- Bits have one home if they are on one net, and only then. -/
theorem homeOf_inj (hb : m.HasBit b) (hb' : m.HasBit b') :
    m.homeOf b = m.homeOf b' ↔ m.aliases.root b = m.aliases.root b' := by
  refine ⟨fun h => ?_, homeOf_congr⟩
  rw [← root_homeOf hb, h, root_homeOf hb']

theorem homeOf_eq_const (hb : m.HasBit b) {t : Trit} :
    m.homeOf b = .const t ↔ m.aliases.root b = .const t := by
  refine ⟨fun h => ?_, homeOf_of_root_const⟩
  rw [← root_homeOf hb, h, m.settled_aliases.root_const]

/-! ## Going through the bits -/

theorem homeOf_of_find? {before : Signal} (h : before <+: m.places)
    (hr : (m.aliases.root b).isConst = false)
    (hq : (before.find? fun p => m.aliases.root p == m.aliases.root b) = some q) :
    m.homeOf b = q := by
  obtain ⟨rest, hrest⟩ := h
  rw [homeOf_of_root hr, ← hrest, List.find?_append, hq]
  rfl

theorem homeOf_of_new {before : Signal} (h : before ++ [p] <+: m.places)
    (hr : (m.aliases.root p).isConst = false)
    (hnew : (before.find? fun q => m.aliases.root q == m.aliases.root p) = none) :
    m.homeOf p = p :=
  homeOf_of_find? h hr (by simp [List.find?_append, hnew])

/-- The bits of a module, each tied to its home. -/
def homes (m : Module) (before : Signal) : List (Bit × Bit) :=
  before.map fun p => (p, m.homeOf p)

theorem homes_append (before more : Signal) :
    m.homes (before ++ more) = m.homes before ++ m.homes more := List.map_append

@[simp] theorem map_fst_homes (before : Signal) : (m.homes before).map Prod.fst = before := by
  simp [homes, Function.comp_def]

theorem mem_homes {before : Signal} (h : p ∈ before) : (p, m.homeOf p) ∈ m.homes before :=
  List.mem_map.mpr ⟨p, h, rfl⟩

theorem anchored_prefix (before : Signal) (h : before <+: m.places) :
    Anchored (m.homes before) := by
  induction before using List.reverseRecOn with
  | nil => exact .nil
  | append_singleton before p ih =>
    have hbefore : before <+: m.places := List.IsPrefix.trans (List.prefix_append _ _) h
    have hplace : p ∈ m.places := h.subset (by simp)
    have hnodup : (before ++ [p]).Nodup := m.nodup_places.sublist h.sublist
    have hnew : p ∉ before := fun hm => (List.nodup_append.mp hnodup).2.2 p hm p (by simp) rfl
    rw [homes_append]
    refine .add (ih hbefore) (mem_places.mp hplace).2 (by simpa using hnew) ?_
    -- a constant, the bit itself, or an earlier bit that is its own home
    cases hr : m.aliases.root p with
    | const t => exact .inr (.inl (by rw [homeOf_of_root_const hr]; rfl))
    | wire id i =>
      have hconst : (m.aliases.root p).isConst = false := by rw [hr]; rfl
      cases hq : before.find? fun q => m.aliases.root q == m.aliases.root p with
      | none => exact .inl (homeOf_of_new h hconst hq)
      | some q =>
        have hhome := homeOf_of_find? hbefore hconst hq
        have hself : m.homeOf q = q := by
          rw [← hhome, homeOf_homeOf (mem_places.mp hplace).1]
        refine .inr (.inr ?_)
        rw [hhome]
        have hmem := mem_homes (m := m) (List.mem_of_find?_eq_some hq)
        rwa [hself] at hmem

theorem anchored_homes (m : Module) : Anchored (m.homes m.places) :=
  anchored_prefix m.places (List.prefix_refl _)

theorem root_homes (hb : m.HasBit b) :
    (AliasMap.ofConnections (tieConnections (m.homes m.places))).root b = m.homeOf b := by
  rw [m.anchored_homes.root_tieConnections]
  cases b with
  | const t => rw [m.anchored_homes.anchorOf_const, homeOf_const]
  | wire id i => exact m.anchored_homes.anchorOf_eq (mem_homes (mem_places.mpr ⟨hb, rfl⟩))

/-- In a module with anchored ties for all its bits, the home of a bit is what it is tied to. -/
theorem homeOf_of_anchored {ties : List (Bit × Bit)} (h : Anchored ties)
    (hc : m.connections = tieConnections ties) (hp : ties.map Prod.fst = m.places) {t : Bit}
    (hm : (p, t) ∈ ties) : m.homeOf p = t := by
  have hroot : ∀ b, m.aliases.root b = anchorOf ties b := by
    intro b
    rw [aliases, hc, h.root_tieConnections]
  have htied : m.aliases.root p = t := by rw [hroot, h.anchorOf_eq hm]
  cases t with
  | const v => exact homeOf_of_root_const htied
  | wire id i =>
    have hfirst := h.find?_anchor hm rfl
    rw [homeOf_of_root (by rw [htied]; rfl), htied, ← hp]
    simp only [hroot, hfirst, Option.getD_some]

end ClockNet.Module

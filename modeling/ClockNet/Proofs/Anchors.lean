import ClockNet.Proofs.Alias
import ClockNet.Proofs.Naming

/-! # Anchored ties

Bits are tied one after another, each to itself, to a constant or to an earlier bit that is tied to
itself. A bit that is tied to itself is an anchor. In the nets of such connections every bit stands
one step behind the bit that stands for it (`root_tieConnections`), and an anchor is the first bit
of its net (`find?_anchor`). -/

namespace ClockNet

/-- Ties of wire bits, in order: each bit once, to itself, to a constant or to an anchor. -/
inductive Anchored : List (Bit × Bit) → Prop where
  | nil : Anchored []
  | add {ties : List (Bit × Bit)} {p t : Bit} (h : Anchored ties) (hp : p.isConst = false)
      (hnew : p ∉ ties.map Prod.fst) (ht : t = p ∨ t.isConst = true ∨ (t, t) ∈ ties) :
      Anchored (ties ++ [(p, t)])

/-- The connections that ties make: an anchor needs none. -/
def tieConnections (ties : List (Bit × Bit)) : List (Signal × Signal) :=
  ties.flatMap fun e => if e.1 = e.2 then [] else [([e.1], [e.2])]

/-- The bit that a bit is tied to; itself if it is tied to none. -/
def anchorOf (ties : List (Bit × Bit)) (b : Bit) : Bit :=
  ((ties.find? (·.1 == b)).map (·.2)).getD b

section
variable {ties : List (Bit × Bit)} {p t b : Bit}

theorem tieConnections_append (ties more : List (Bit × Bit)) :
    tieConnections (ties ++ more) = tieConnections ties ++ tieConnections more :=
  List.flatMap_append

theorem tieConnections_single (p t : Bit) :
    tieConnections [(p, t)] = if p = t then [] else [([p], [t])] := List.flatMap_singleton ..

theorem find?_of_not_mem (h : b ∉ ties.map Prod.fst) : ties.find? (·.1 == b) = none := by
  rw [List.find?_eq_none]
  intro e he hb
  exact h (List.mem_map.mpr ⟨e, he, by simpa using hb⟩)

theorem anchorOf_of_not_mem (h : b ∉ ties.map Prod.fst) : anchorOf ties b = b := by
  simp [anchorOf, find?_of_not_mem h]

theorem anchorOf_append (hnew : p ∉ ties.map Prod.fst) (t b : Bit) :
    anchorOf (ties ++ [(p, t)]) b = if b = p then t else anchorOf ties b := by
  unfold anchorOf
  rw [List.find?_append]
  by_cases hb : b = p
  · subst hb
    simp [find?_of_not_mem hnew]
  · have hb' : ¬ p = b := fun he => hb he.symm
    simp [hb, hb']

namespace Anchored

theorem nodup (h : Anchored ties) : (ties.map Prod.fst).Nodup := by
  induction h with
  | nil => exact List.nodup_nil
  | add _ _ hnew _ ih =>
    rw [List.map_append, List.nodup_append]
    refine ⟨ih, by simp, ?_⟩
    intro a ha b hb he
    obtain rfl := List.mem_singleton.mp hb
    exact hnew (he ▸ ha)

theorem isConst_of_mem (h : Anchored ties) (hm : p ∈ ties.map Prod.fst) : p.isConst = false := by
  induction h with
  | nil => cases hm
  | add _ hp _ _ ih =>
    rw [List.map_append, List.mem_append] at hm
    rcases hm with hm | hm
    · exact ih hm
    · exact List.mem_singleton.mp hm ▸ hp

theorem target (h : Anchored ties) (hm : (p, t) ∈ ties) : t.isConst = true ∨ (t, t) ∈ ties := by
  induction h with
  | nil => cases hm
  | add _ _ _ ht ih =>
    rcases List.mem_append.mp hm with hm | hm
    · exact (ih hm).imp_right (List.mem_append_left _)
    · obtain ⟨rfl, rfl⟩ := Prod.mk.inj (List.mem_singleton.mp hm)
      rcases ht with rfl | ht
      · exact .inr (List.mem_append_right _ hm)
      · exact ht.imp_right (List.mem_append_left _)

theorem anchorOf_eq (h : Anchored ties) (hm : (p, t) ∈ ties) : anchorOf ties p = t := by
  have hfind := find?_of_nodup h.nodup hm
  simp only [anchorOf, hfind, Option.map_some, Option.getD_some]

theorem anchorOf_const (h : Anchored ties) (t : Trit) : anchorOf ties (.const t) = .const t :=
  anchorOf_of_not_mem fun hm => by cases h.isConst_of_mem hm

theorem eq_of_anchorOf_eq (h : Anchored ties) (hp : p.isConst = false)
    (hnew : p ∉ ties.map Prod.fst) (hb : anchorOf ties b = p) : b = p := by
  by_cases hm : b ∈ ties.map Prod.fst
  · obtain ⟨⟨b', t⟩, he, rfl⟩ := List.mem_map.mp hm
    rw [h.anchorOf_eq he] at hb
    subst hb
    rcases h.target he with hc | ha
    · rw [hp] at hc
      cases hc
    · exact absurd (List.mem_map_of_mem ha) hnew
  · rwa [anchorOf_of_not_mem hm] at hb

/-- In the nets of the connections, the bit that a bit is tied to stands for it. -/
theorem root_tieConnections (h : Anchored ties) (b : Bit) :
    (AliasMap.ofConnections (tieConnections ties)).root b = anchorOf ties b := by
  induction h generalizing b with
  | nil => rfl
  | @add ties p t h hp hnew ht ih =>
    rw [tieConnections_append, tieConnections_single, anchorOf_append hnew]
    by_cases hself : p = t
    · subst hself
      rw [if_pos rfl, List.append_nil, ih]
      split
      · rename_i hb
        rw [hb, anchorOf_of_not_mem hnew]
      · rfl
    · -- the tie is one link, from the new bit to a bit that stands for itself
      have hroot : anchorOf ties t = t := by
        rcases ht with rfl | hc | ha
        · exact absurd rfl hself
        · cases t with
          | const t => exact h.anchorOf_const t
          | wire id i => cases hc
        · exact h.anchorOf_eq ha
      have hlink : AliasMap.ofConnections (tieConnections ties ++ [([p], [t])]) =
          (AliasMap.ofConnections (tieConnections ties)).link p t := by
        rw [AliasMap.ofConnections, List.foldl_append]
        show (AliasMap.ofConnections (tieConnections ties)).join p t = _
        unfold AliasMap.join
        simp [ih, anchorOf_of_not_mem hnew, hroot, hself, hp]
      rw [if_neg hself, hlink, AliasMap.root_link, ih]
      by_cases hb : b = p
      · rw [if_pos hb, if_pos (by rw [hb, anchorOf_of_not_mem hnew])]
      · rw [if_neg hb, if_neg fun he => hb (h.eq_of_anchorOf_eq hp hnew he)]

theorem exists_split (h : Anchored ties) (hm : (p, t) ∈ ties) (ht : t.isConst = false) :
    ∃ before after, ties = before ++ (t, t) :: after ∧ ∀ e ∈ before, e.2 ≠ t := by
  induction h generalizing p t with
  | nil => cases hm
  | @add ties q s h hq hnew hs ih =>
    have hold : ∀ p, (p, t) ∈ ties → ∃ before after,
        ties ++ [(q, s)] = before ++ (t, t) :: after ∧ ∀ e ∈ before, e.2 ≠ t := by
      intro p hm
      obtain ⟨before, after, he, hbefore⟩ := ih hm ht
      exact ⟨before, after ++ [(q, s)], by rw [he]; simp, hbefore⟩
    rcases List.mem_append.mp hm with hm | hm
    · exact hold p hm
    · obtain ⟨rfl, rfl⟩ := Prod.mk.inj (List.mem_singleton.mp hm)
      rcases hs with rfl | hc | ha
      · refine ⟨ties, [], rfl, ?_⟩
        rintro ⟨e, e'⟩ he rfl
        rcases h.target he with hc | ha
        · rw [ht] at hc
          cases hc
        · exact hnew (List.mem_map_of_mem ha)
      · rw [ht] at hc
        cases hc
      · exact hold t ha

theorem find?_anchor (h : Anchored ties) (hm : (p, t) ∈ ties) (ht : t.isConst = false) :
    (ties.map Prod.fst).find? (fun q => anchorOf ties q == t) = some t := by
  obtain ⟨before, after, he, hbefore⟩ := h.exists_split hm ht
  have hself : (t, t) ∈ ties := by
    rw [he]
    simp
  rw [List.find?_eq_some_iff_append]
  refine ⟨by simp [h.anchorOf_eq hself], before.map Prod.fst, after.map Prod.fst, ?_, ?_⟩
  · rw [he]
    simp
  · intro q hq
    obtain ⟨e, hmem, rfl⟩ := List.mem_map.mp hq
    have htied : (e.1, e.2) ∈ ties := by
      rw [he]
      exact List.mem_append_left _ hmem
    simpa [h.anchorOf_eq htied] using hbefore e hmem

end Anchored

end

end ClockNet

import ClockNet.Table.Ordered
import ClockNet.Table.Sorted

/-! # Tables put together again

A table is put together from its entries one after another. Each name is new and, in a sorted
table, comes last, so the entries arrive where they were (`foldl_insert_entries`,
`foldl_set_entries`), also when their values are other ones by then. -/

namespace ClockNet

/-! ## Sorted tables -/

theorem insertSorted_of_lt {name : String} {value : β} {entries : List (String × β)}
    (h : ∀ e ∈ entries, e.1 < name) :
    insertSorted name value entries = entries ++ [(name, value)] := by
  induction entries with
  | nil => rfl
  | cons e rest ih =>
    have he : e.1 < name := h e List.mem_cons_self
    have hnot : ¬ name < e.1 := fun hlt => String.lt_irrefl _ (String.lt_trans he hlt)
    have hne : name ≠ e.1 := fun heq => String.lt_irrefl _ (heq ▸ he)
    simp only [insertSorted, hnot, hne, if_false, List.cons_append,
      ih fun e he => h e (List.mem_cons_of_mem _ he)]

namespace SortedTable

theorem entries_foldl_insert (t : SortedTable β) {rest : List (String × β)}
    (h : (t.entries ++ rest).Pairwise fun a b => a.1 < b.1) :
    (rest.foldl (fun t e => t.insert e.1 e.2) t).entries = t.entries ++ rest := by
  induction rest generalizing t with
  | nil => simp
  | cons e rest ih =>
    have hlast : (t.insert e.1 e.2).entries = t.entries ++ [e] := by
      refine insertSorted_of_lt ?_
      intro a ha
      exact (List.pairwise_append.mp h).2.2 a ha e List.mem_cons_self
    rw [List.foldl_cons, ih]
    · rw [hlast, List.append_assoc, List.singleton_append]
    · rw [hlast, List.append_assoc, List.singleton_append]
      exact h

/-- Inserting the entries of a table one after another gives the table. -/
theorem foldl_insert_entries (t : SortedTable β) :
    t.entries.foldl (fun t e => t.insert e.1 e.2) .empty = t :=
  ext (entries_foldl_insert .empty t.sorted)

/-- Replaces every value by its image. -/
def mapValues (t : SortedTable β) (f : β → γ) : SortedTable γ :=
  ⟨t.entries.map fun e => (e.1, f e.2), List.pairwise_map.mpr t.sorted⟩

theorem mapValues_eq_self {t : SortedTable β} {f : β → β} (h : ∀ e ∈ t.entries, f e.2 = e.2) :
    t.mapValues f = t := by
  have hsame : t.entries.map (fun e => (e.1, f e.2)) = t.entries.map id :=
    List.map_congr_left fun e he => by rw [h e he]; rfl
  exact ext (hsame.trans (List.map_id _))

end SortedTable

/-! ## Tables in order of insertion -/

namespace OrderedTable

theorem replaceOrAppend_of_not_mem {name : String} {value : β} {entries : List (String × β)}
    (h : name ∉ entries.map Prod.fst) :
    replaceOrAppend name value entries = entries ++ [(name, value)] := by
  induction entries with
  | nil => rfl
  | cons e rest ih =>
    rw [List.map_cons, List.mem_cons, not_or] at h
    obtain ⟨hne, hrest⟩ := h
    have hne : e.1 ≠ name := fun he => hne he.symm
    simp only [replaceOrAppend, hne, if_false, List.cons_append, ih hrest]

theorem replaceOrAppend_of_mem {name : String} {value : β} {entries : List (String × β)}
    (hnodup : (entries.map Prod.fst).Nodup) (h : name ∈ entries.map Prod.fst) :
    replaceOrAppend name value entries =
      entries.map fun e => if e.1 = name then (name, value) else e := by
  induction entries with
  | nil => cases h
  | cons e rest ih =>
    obtain ⟨hnew, hrest⟩ := List.nodup_cons.mp hnodup
    unfold replaceOrAppend
    rw [List.map_cons]
    by_cases he : e.1 = name
    · -- no other entry has the name
      have hsame : rest.map (fun e => if e.1 = name then (name, value) else e) = rest.map id := by
        refine List.map_congr_left fun x hx => if_neg fun hxn => hnew ?_
        exact he ▸ hxn ▸ List.mem_map_of_mem hx
      rw [if_pos he, if_pos he, hsame, List.map_id]
    · rw [if_neg he, if_neg he, ih hrest ((List.mem_cons.mp h).resolve_left (Ne.symm he))]

theorem set_set (t : OrderedTable β) (name : String) (old value : β) :
    (t.set name old).set name value = t.set name value := by
  refine ext ?_
  show replaceOrAppend name value (replaceOrAppend name old t.entries) =
    replaceOrAppend name value t.entries
  induction t.entries with
  | nil => simp [replaceOrAppend]
  | cons e rest ih =>
    by_cases he : e.1 = name
    · simp [replaceOrAppend, he]
    · simp [replaceOrAppend, he, ih]

theorem mem_replaceOrAppend {name : String} {value : β} {entries : List (String × β)}
    {e : String × β} (h : e ∈ replaceOrAppend name value entries) :
    e ∈ entries ∨ e = (name, value) := by
  induction entries with
  | nil => exact .inr (List.mem_singleton.mp h)
  | cons x rest ih =>
    unfold replaceOrAppend at h
    split at h
    · rcases List.mem_cons.mp h with rfl | h
      · exact .inr rfl
      · exact .inl (List.mem_cons_of_mem _ h)
    · rcases List.mem_cons.mp h with rfl | h
      · exact .inl List.mem_cons_self
      · exact (ih h).imp_left (List.mem_cons_of_mem _)

theorem entries_foldl_set (t : OrderedTable β) {rest : List (String × β)}
    (h : ((t.entries ++ rest).map Prod.fst).Nodup) :
    (rest.foldl (fun t e => t.set e.1 e.2) t).entries = t.entries ++ rest := by
  induction rest generalizing t with
  | nil => simp
  | cons e rest ih =>
    have hlast : (t.set e.1 e.2).entries = t.entries ++ [e] := by
      refine replaceOrAppend_of_not_mem ?_
      intro hmem
      rw [List.map_append, List.nodup_append] at h
      exact h.2.2 e.1 hmem e.1 (by simp) rfl
    rw [List.foldl_cons, ih]
    · rw [hlast, List.append_assoc, List.singleton_append]
    · rw [hlast, List.append_assoc, List.singleton_append]
      exact h

/-- Setting the entries of a table one after another gives the table. -/
theorem foldl_set_entries (t : OrderedTable β) :
    t.entries.foldl (fun t e => t.set e.1 e.2) .empty = t :=
  ext (entries_foldl_set .empty t.nodup)

end OrderedTable

end ClockNet

/-! Finite maps kept sorted by name. The entries of a table are strictly increasing
in their names, so two tables with the same bindings have the same entries, and a
walk over the entries is a walk in name order. -/

namespace ClockNet

/-- Sets the value of `name` in a list of entries sorted by name: an equal name
takes the new value, any other list gains one entry at its place in the order. -/
def insertSorted (name : String) (value : β) : List (String × β) → List (String × β)
  | [] => [(name, value)]
  | (other, old) :: rest =>
    if name < other then (name, value) :: (other, old) :: rest
    else if name = other then (name, value) :: rest
    else (other, old) :: insertSorted name value rest

theorem mem_insertSorted {name : String} {value : β} {entries : List (String × β)}
    {e : String × β} (h : e ∈ insertSorted name value entries) :
    e = (name, value) ∨ e ∈ entries := by
  induction entries with
  | nil => simpa [insertSorted] using h
  | cons head rest ih =>
    simp only [insertSorted] at h
    split at h
    · simpa using h
    · split at h
      · rcases List.mem_cons.mp h with h | h
        · exact .inl h
        · exact .inr (List.mem_cons_of_mem _ h)
      · rcases List.mem_cons.mp h with h | h
        · exact .inr (h ▸ List.mem_cons_self)
        · exact (ih h).imp_right (List.mem_cons_of_mem _)

theorem insertSorted_pairwise (name : String) (value : β) {entries : List (String × β)}
    (h : entries.Pairwise (fun a b => a.1 < b.1)) :
    (insertSorted name value entries).Pairwise (fun a b => a.1 < b.1) := by
  induction entries with
  | nil => simp [insertSorted]
  | cons head rest ih =>
    obtain ⟨hhead, hrest⟩ := List.pairwise_cons.mp h
    simp only [insertSorted]
    split
    · rename_i hlt
      refine List.pairwise_cons.mpr ⟨?_, h⟩
      intro e he
      rcases List.mem_cons.mp he with he | he
      · exact he ▸ hlt
      · exact String.lt_trans hlt (hhead e he)
    · rename_i hlt
      split
      · rename_i heq
        exact List.pairwise_cons.mpr ⟨fun e he => heq ▸ hhead e he, hrest⟩
      · rename_i hne
        refine List.pairwise_cons.mpr ⟨?_, ih hrest⟩
        intro e he
        rcases mem_insertSorted he with rfl | he
        · exact Decidable.byContradiction fun hge =>
            hne (String.le_antisymm (String.not_lt.mp hge) (String.not_lt.mp hlt))
        · exact hhead e he

/-- A finite map whose entries are sorted by name. -/
structure SortedTable (β : Type) where
  /-- The bindings, one for each name, in name order. -/
  entries : List (String × β)
  sorted : entries.Pairwise (fun a b => a.1 < b.1)
deriving DecidableEq

namespace SortedTable

def empty : SortedTable β := ⟨[], List.Pairwise.nil⟩

instance : EmptyCollection (SortedTable β) := ⟨empty⟩
instance : Inhabited (SortedTable β) := ⟨empty⟩

/-- Binds `name` to `value`, in place of an earlier binding. -/
def insert (t : SortedTable β) (name : String) (value : β) : SortedTable β :=
  ⟨insertSorted name value t.entries, insertSorted_pairwise name value t.sorted⟩

def get? (t : SortedTable β) (name : String) : Option β :=
  (t.entries.find? (·.1 == name)).map (·.2)

@[ext] theorem ext {s t : SortedTable β} (h : s.entries = t.entries) : s = t := by
  cases s; cases t; simp_all

theorem find?_insertSorted (name : String) (value : β) (entries : List (String × β))
    (other : String) :
    (insertSorted name value entries).find? (·.1 == other) =
      if other = name then some (name, value) else entries.find? (·.1 == other) := by
  induction entries with
  | nil =>
    by_cases h : other = name
    · simp [insertSorted, h]
    · have h' : ¬ name = other := fun e => h e.symm
      simp [insertSorted, h, h']
  | cons head rest ih =>
    obtain ⟨key, old⟩ := head
    by_cases h : other = name
    · subst h
      simp only [insertSorted]
      split
      · simp
      · split
        · simp
        · rename_i hne
          have hne' : ¬ key = other := fun e => hne e.symm
          simp [hne', ih]
    · have h' : ¬ name = other := fun e => h e.symm
      simp only [insertSorted]
      split
      · simp [h']
      · split
        · rename_i heq
          subst heq
          simp [h']
        · simp only [List.find?_cons, ih, h, if_false]

theorem get?_insert (t : SortedTable β) (name : String) (value : β) (other : String) :
    (t.insert name value).get? other = if other = name then some value else t.get? other := by
  unfold get? insert
  rw [find?_insertSorted]
  split <;> rfl

@[simp] theorem get?_empty (name : String) : (empty : SortedTable β).get? name = none := rfl

end SortedTable

end ClockNet

/-! Finite maps in order of first insertion. Setting a name that is already bound
keeps its place, so the order of a table records when each name first appeared. -/

namespace ClockNet

/-- Sets the value of `name` in a list of entries: the first entry of that name
takes the new value where it stands, otherwise a new entry is appended. -/
def replaceOrAppend (name : String) (value : β) : List (String × β) → List (String × β)
  | [] => [(name, value)]
  | (other, old) :: rest =>
    if other = name then (name, value) :: rest
    else (other, old) :: replaceOrAppend name value rest

/-- Setting a bound name changes no names, setting an unbound one appends it. -/
theorem names_replaceOrAppend (name : String) (value : β) (entries : List (String × β)) :
    (replaceOrAppend name value entries).map Prod.fst =
      if name ∈ entries.map Prod.fst then entries.map Prod.fst
      else entries.map Prod.fst ++ [name] := by
  induction entries with
  | nil => simp [replaceOrAppend]
  | cons head rest ih =>
    obtain ⟨other, old⟩ := head
    by_cases h : other = name
    · simp [replaceOrAppend, h]
    · have h' : ¬ name = other := fun e => h e.symm
      simp only [replaceOrAppend, h, if_false, List.map_cons, ih, List.mem_cons, h', false_or]
      split <;> simp

theorem nodup_replaceOrAppend (name : String) (value : β) {entries : List (String × β)}
    (h : (entries.map Prod.fst).Nodup) :
    ((replaceOrAppend name value entries).map Prod.fst).Nodup := by
  rw [names_replaceOrAppend]
  split
  · exact h
  · rename_i hnew
    refine List.nodup_append.mpr ⟨h, by simp, ?_⟩
    intro a ha b hb hab
    exact hnew (by simp_all)

/-- A finite map whose entries stand in order of first insertion. -/
structure OrderedTable (β : Type) where
  /-- The bindings, one for each name. -/
  entries : List (String × β)
  nodup : (entries.map Prod.fst).Nodup
deriving DecidableEq

namespace OrderedTable

def empty : OrderedTable β := ⟨[], by simp⟩

instance : EmptyCollection (OrderedTable β) := ⟨empty⟩
instance : Inhabited (OrderedTable β) := ⟨empty⟩

/-- Binds `name` to `value`; a bound name keeps its place. -/
def set (t : OrderedTable β) (name : String) (value : β) : OrderedTable β :=
  ⟨replaceOrAppend name value t.entries, nodup_replaceOrAppend name value t.nodup⟩

def get? (t : OrderedTable β) (name : String) : Option β :=
  (t.entries.find? (·.1 == name)).map (·.2)

/-- Replaces every value by its image, leaving the names and their order. -/
def mapValues (t : OrderedTable β) (f : String → β → γ) : OrderedTable γ :=
  ⟨t.entries.map fun e => (e.1, f e.1 e.2), by
    simpa [List.map_map, Function.comp_def] using t.nodup⟩

@[ext] theorem ext {s t : OrderedTable β} (h : s.entries = t.entries) : s = t := by
  cases s; cases t; simp_all

theorem names_set (t : OrderedTable β) (name : String) (value : β) :
    (t.set name value).entries.map Prod.fst =
      if name ∈ t.entries.map Prod.fst then t.entries.map Prod.fst
      else t.entries.map Prod.fst ++ [name] :=
  names_replaceOrAppend name value t.entries

/-! ### Look-up -/

theorem find?_replaceOrAppend (name : String) (value : β) (entries : List (String × β))
    (other : String) :
    (replaceOrAppend name value entries).find? (·.1 == other) =
      if other = name then some (name, value) else entries.find? (·.1 == other) := by
  induction entries with
  | nil =>
    by_cases h : other = name
    · simp [replaceOrAppend, h]
    · have h' : ¬ name = other := fun e => h e.symm
      simp [replaceOrAppend, h, h']
  | cons head rest ih =>
    obtain ⟨key, old⟩ := head
    by_cases hk : key = name
    · subst hk
      by_cases h : other = key
      · simp [replaceOrAppend, h]
      · have h' : ¬ key = other := fun e => h e.symm
        simp [replaceOrAppend, h, h']
    · by_cases h : key = other
      · subst h
        simp [replaceOrAppend, hk]
      · simp [replaceOrAppend, hk, h, ih]

theorem get?_set (t : OrderedTable β) (name : String) (value : β) (other : String) :
    (t.set name value).get? other = if other = name then some value else t.get? other := by
  unfold get? set
  rw [find?_replaceOrAppend]
  split <;> rfl

theorem get?_mapValues (t : OrderedTable β) (f : String → β → γ) (name : String) :
    (t.mapValues f).get? name = (t.get? name).map (f name) := by
  unfold get? mapValues
  have hp : ((·.1 == name) ∘ fun e : String × β => (e.1, f e.1 e.2)) = fun e => e.1 == name := rfl
  rw [List.find?_map, hp]
  cases h : t.entries.find? (·.1 == name) with
  | none => rfl
  | some e =>
    have he : e.1 = name := by simpa using List.find?_some h
    simp [he]

theorem mem_of_get? {t : OrderedTable β} {name : String} {value : β}
    (h : t.get? name = some value) : (name, value) ∈ t.entries := by
  obtain ⟨e, he, rfl⟩ := Option.map_eq_some_iff.mp h
  have hn : e.1 = name := by simpa using List.find?_some he
  exact hn ▸ List.mem_of_find?_eq_some he

end OrderedTable

end ClockNet

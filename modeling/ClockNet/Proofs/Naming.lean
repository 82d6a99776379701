import ClockNet.Design
import Mathlib.Data.List.Nodup
import Mathlib.Data.List.Perm.Subperm
import Mathlib.Data.String.Basic

/-! # Names and the things they stand for

A fresh name is in use nowhere in its module (`freshName_not_mem`), and where names are unique a
look-up finds the wire, port or module of the name. The bits that a module has are the constants
and the places of its wires; signals of a well-formed module have no others. -/

namespace ClockNet

/-- In a list with distinct names, the name of an entry finds that entry. -/
theorem find?_of_nodup {α β : Type _} [DecidableEq β] {f : α → β} {l : List α}
    (hn : (l.map f).Nodup) {a : α} (ha : a ∈ l) : l.find? (f · == f a) = some a := by
  induction l with
  | nil => cases ha
  | cons x rest ih =>
    obtain ⟨hx, hrest⟩ := List.nodup_cons.mp hn
    rcases List.mem_cons.mp ha with rfl | ha
    · simp
    · have hne : f x ≠ f a := fun he => hx (he ▸ List.mem_map_of_mem ha)
      rw [List.find?_cons_of_neg (by simpa using hne), ih hrest ha]

theorem not_mem_before {α β : Type _} {f : α → β} {before after : List α} {a : α}
    (h : ((before ++ a :: after).map f).Nodup) : f a ∉ before.map f := by
  intro hmem
  rw [List.map_append, List.nodup_append] at h
  exact h.2.2 _ hmem (f a) (by simp) rfl

theorem nodup_concat {α β : Type _} {f : α → β} {l : List α} {a : α} (h : (l.map f).Nodup)
    (hnew : f a ∉ l.map f) : ((l ++ [a]).map f).Nodup := by
  rw [List.map_append, List.map_singleton]
  exact List.nodup_append.mpr ⟨h, List.nodup_singleton _, fun x hx y hy hxy =>
    hnew (List.mem_singleton.mp hy ▸ hxy ▸ hx)⟩

theorem modify_concat {α : Type} (l : List α) (a : α) (f : α → α) :
    (l ++ [a]).modify l.length f = l ++ [f a] := by
  rw [List.modify_eq_take_cons_drop (by simp)]
  simp

theorem OrderedTable.get?_of_mem {β : Type _} {t : OrderedTable β} {name : String} {value : β}
    (h : (name, value) ∈ t.entries) : t.get? name = some value := by
  have he := find?_of_nodup (f := Prod.fst) t.nodup h
  unfold get?
  rw [he]
  rfl

namespace Module

/-! ## Fresh names -/

theorem numbered_injective (stem : String) : Function.Injective (numbered stem) := by
  refine Function.LeftInverse.injective
    (g := fun name => Nat.ofDigitChars 10 (name.toList.drop (stem ++ "$").toList.length) 0) ?_
  intro n
  simp only [numbered, String.toList_append, List.drop_left]
  simp

/-- The search stops at an unused number, or has found all its tries in use. -/
theorem unusedNumber_cases (used : List String) (stem : String) (tries n : Nat) :
    n ≤ unusedNumber used stem tries n ∧
      (numbered stem (unusedNumber used stem tries n) ∉ used ∨
        ∀ i < tries, numbered stem (n + i) ∈ used ∧
          unusedNumber used stem tries n = n + tries) := by
  induction tries generalizing n with
  | zero => exact ⟨Nat.le_refl n, .inr fun i hi => absurd hi (Nat.not_lt_zero i)⟩
  | succ tries ih =>
    by_cases hn : numbered stem n ∈ used
    · simp only [unusedNumber, hn, if_true]
      obtain ⟨hle, h⟩ := ih (n + 1)
      refine ⟨by omega, h.imp id fun h i hi => ?_⟩
      cases i with
      | zero =>
        refine ⟨by simpa using hn, ?_⟩
        cases tries with
        | zero => rfl
        | succ k => rw [(h 0 (by omega)).2]; omega
      | succ i =>
        obtain ⟨hu, he⟩ := h i (by omega)
        exact ⟨by rwa [show n + (i + 1) = n + 1 + i by omega], by rw [he]; omega⟩
    · rw [unusedNumber, if_neg hn]
      exact ⟨Nat.le_refl n, .inl hn⟩

/-- With as many tries as names in use, one of the numbers tried or the next one is unused. -/
theorem unusedNumber_not_mem (used : List String) (stem : String) (n : Nat) :
    numbered stem (unusedNumber used stem used.length n) ∉ used := by
  rcases (unusedNumber_cases used stem used.length n).2 with h | h
  · exact h
  intro hu
  have hall : ∀ i < used.length + 1, numbered stem (n + i) ∈ used := by
    intro i hi
    rcases Nat.lt_or_eq_of_le (Nat.le_of_lt_succ hi) with hlt | rfl
    · exact (h i hlt).1
    · rcases Nat.eq_zero_or_pos used.length with hz | hpos
      · rw [List.length_eq_zero_iff.mp hz] at hu
        cases hu
      · rwa [(h 0 hpos).2] at hu
  have hnodup : ((List.range (used.length + 1)).map fun i => numbered stem (n + i)).Nodup := by
    refine List.Nodup.map ?_ List.nodup_range
    intro i j hij
    exact Nat.add_left_cancel (numbered_injective stem hij)
  have hsub : ((List.range (used.length + 1)).map fun i => numbered stem (n + i)) ⊆ used := by
    intro x hx
    obtain ⟨i, hi, rfl⟩ := List.mem_map.mp hx
    exact hall i (List.mem_range.mp hi)
  have hlen := (hnodup.subperm hsub).length_le
  simp only [List.length_map, List.length_range] at hlen
  omega

theorem freshName_not_mem (m : Module) (stem : String) : (m.freshName stem).1 ∉ m.names :=
  unusedNumber_not_mem m.names stem m.nextNumber

theorem freshName_snd (m : Module) (stem : String) :
    ∃ n, (m.freshName stem).2 = { m with nextNumber := n } := ⟨_, rfl⟩

/-! ## Wires and cells by id -/

theorem wire_eq_getElem {m : Module} {id : WireId} (h : id < m.wires.length) :
    m.wire id = m.wires[id] := by
  rw [wire, List.getElem?_eq_getElem h, Option.getD_some]

theorem wire_eq_default {m : Module} {id : WireId} (h : m.wires.length ≤ id) :
    m.wire id = default := by
  rw [wire, List.getElem?_eq_none h, Option.getD_none]

theorem wire_mem {m : Module} {id : WireId} (h : id < m.wires.length) : m.wire id ∈ m.wires :=
  wire_eq_getElem h ▸ List.getElem_mem h

theorem lt_of_place {m : Module} {id : WireId} {i : Nat} (h : i < (m.wire id).width) :
    id < m.wires.length := by
  by_contra hge
  rw [wire_eq_default (Nat.le_of_not_lt hge)] at h
  exact absurd h (Nat.not_lt_zero i)

theorem cell_eq_getElem {m : Module} {id : CellId} (h : id < m.cells.length) :
    m.cell id = m.cells[id] := by
  rw [cell, List.getElem?_eq_getElem h, Option.getD_some]

theorem cell_mem {m : Module} {id : CellId} (h : id < m.cells.length) : m.cell id ∈ m.cells :=
  cell_eq_getElem h ▸ List.getElem_mem h

theorem exists_id_of_mem_cells {m : Module} {c : Cell} (h : c ∈ m.cells) :
    ∃ id < m.cells.length, m.cell id = c := by
  obtain ⟨id, hid, rfl⟩ := List.getElem_of_mem h
  exact ⟨id, hid, cell_eq_getElem hid⟩

theorem wire_modifyWire (m : Module) (id : WireId) (f : Wire → Wire) (j : WireId) :
    (m.modifyWire id f).wire j = if id = j ∧ j < m.wires.length then f (m.wire j)
      else m.wire j := by
  unfold modifyWire wire
  dsimp only
  rw [List.getElem?_modify]
  by_cases hj : j < m.wires.length
  · by_cases he : id = j
    · simp [he, hj]
    · simp [he]
  · simp [hj]

@[simp] theorem length_modifyWire (m : Module) (id : WireId) (f : Wire → Wire) :
    (m.modifyWire id f).wires.length = m.wires.length := List.length_modify _ _ _

/-! ## Look-up by name -/

theorem name_of_findWire {m : Module} {name : String} {id : WireId}
    (h : m.findWire name = some id) : id < m.wires.length ∧ (m.wire id).name = name := by
  obtain ⟨hid, hp, -⟩ := List.findIdx?_eq_some_iff_getElem.mp h
  exact ⟨hid, by rw [wire_eq_getElem hid]; simpa using hp⟩

theorem findIdx?_of_nodup {α : Type _} {f : α → String} {l : List α} (hn : (l.map f).Nodup)
    {i : Nat} (h : i < l.length) : l.findIdx? (f · == f l[i]) = some i := by
  refine List.findIdx?_eq_some_iff_getElem.mpr ⟨h, by simp, ?_⟩
  intro j hji hj
  have hmj : j < (l.map f).length := by rw [List.length_map]; exact Nat.lt_trans hji h
  have hmi : i < (l.map f).length := by rw [List.length_map]; exact h
  have he : (l.map f).get ⟨j, hmj⟩ = (l.map f).get ⟨i, hmi⟩ := by simpa using hj
  exact absurd ((List.Nodup.getElem_inj_iff hn).mp he) (Nat.ne_of_lt hji)

theorem findWire_eq_none {m : Module} {name : String} :
    m.findWire name = none ↔ name ∉ m.wires.map (·.name) := by
  simp [findWire, List.findIdx?_eq_none_iff]

theorem findCell_eq_none {m : Module} {name : String} :
    m.findCell name = none ↔ name ∉ m.cells.map (·.name) := by
  simp [findCell, List.findIdx?_eq_none_iff]

theorem findWire_name {m : Module} (hn : (m.wires.map (·.name)).Nodup) {id : WireId}
    (h : id < m.wires.length) : m.findWire (m.wire id).name = some id := by
  rw [wire_eq_getElem h]
  exact findIdx?_of_nodup hn h

theorem name_of_findCell {m : Module} {name : String} {id : CellId}
    (h : m.findCell name = some id) : id < m.cells.length ∧ (m.cell id).name = name := by
  obtain ⟨hid, hp, -⟩ := List.findIdx?_eq_some_iff_getElem.mp h
  exact ⟨hid, by rw [cell_eq_getElem hid]; simpa using hp⟩

theorem findCell_name {m : Module} (hn : (m.cells.map (·.name)).Nodup) {id : CellId}
    (h : id < m.cells.length) : m.findCell (m.cell id).name = some id := by
  rw [cell_eq_getElem h]
  exact findIdx?_of_nodup hn h

theorem wire_inj_of_name {m : Module} (hn : (m.wires.map (·.name)).Nodup) {id id' : WireId}
    (h : id < m.wires.length) (h' : id' < m.wires.length)
    (he : (m.wire id).name = (m.wire id').name) : id = id' :=
  Option.some.inj ((findWire_name hn h).symm.trans (he ▸ findWire_name hn h'))

theorem wires_nodup_of_inj {m : Module} (h : ∀ i < m.wires.length, ∀ j < m.wires.length,
    (m.wire i).name = (m.wire j).name → i = j) : (m.wires.map (·.name)).Nodup := by
  refine List.nodup_iff_injective_getElem.mpr ?_
  rintro ⟨i, hi⟩ ⟨j, hj⟩ he
  have hi' : i < m.wires.length := by simpa using hi
  have hj' : j < m.wires.length := by simpa using hj
  refine Fin.ext (h i hi' j hj' ?_)
  rw [wire_eq_getElem hi', wire_eq_getElem hj']
  simpa using he

/-! ## The bits of a module -/

/-- The module has a bit: it is a constant or a place of a wire. -/
def HasBit (m : Module) : Bit → Prop
  | .const _ => True
  | .wire id place => place < (m.wire id).width

instance (m : Module) (b : Bit) : Decidable (m.HasBit b) := by
  cases b <;> unfold HasBit <;> infer_instance

/-- Names are unique, signals refer to bits that the module has, and connections join signals
of one width. -/
structure WellFormed (m : Module) : Prop where
  wires_nodup : (m.wires.map (·.name)).Nodup
  cells_nodup : (m.cells.map (·.name)).Nodup
  cell_bits : ∀ c ∈ m.cells, ∀ e ∈ c.ports.entries, ∀ b ∈ e.2, m.HasBit b
  connection_bits : ∀ c ∈ m.connections, ∀ b ∈ c.1 ++ c.2, m.HasBit b
  connection_widths : ∀ c ∈ m.connections, c.1.length = c.2.length

instance (m : Module) : Decidable m.WellFormed :=
  decidable_of_iff ((m.wires.map (·.name)).Nodup ∧ (m.cells.map (·.name)).Nodup ∧
      (∀ c ∈ m.cells, ∀ e ∈ c.ports.entries, ∀ b ∈ e.2, m.HasBit b) ∧
      (∀ c ∈ m.connections, ∀ b ∈ c.1 ++ c.2, m.HasBit b) ∧
      ∀ c ∈ m.connections, c.1.length = c.2.length)
    ⟨fun ⟨h₁, h₂, h₃, h₄, h₅⟩ => ⟨h₁, h₂, h₃, h₄, h₅⟩,
      fun h => ⟨h.1, h.2, h.3, h.4, h.5⟩⟩

end Module

namespace Design

/-! ## Modules of a design -/

structure WellFormed (d : Design) : Prop where
  names_nodup : (d.modules.map (·.name)).Nodup
  modules : ∀ m ∈ d.modules, m.WellFormed

instance (d : Design) : Decidable d.WellFormed :=
  decidable_of_iff ((d.modules.map (·.name)).Nodup ∧ ∀ m ∈ d.modules, m.WellFormed)
    ⟨fun ⟨h₁, h₂⟩ => ⟨h₁, h₂⟩, fun h => ⟨h.1, h.2⟩⟩

theorem mem_of_find? {d : Design} {name : String} {m : Module} (h : d.find? name = some m) :
    m ∈ d.modules := List.mem_of_find?_eq_some h

theorem name_of_find? {d : Design} {name : String} {m : Module} (h : d.find? name = some m) :
    m.name = name := by simpa using List.find?_some h

theorem find?_eq_none {d : Design} {name : String} :
    d.find? name = none ↔ name ∉ d.modules.map (·.name) := by
  simp [find?, List.find?_eq_none]

theorem find?_name {d : Design} (hn : (d.modules.map (·.name)).Nodup) {m : Module}
    (h : m ∈ d.modules) : d.find? m.name = some m := find?_of_nodup hn h

theorem name_replaced (m old : Module) :
    (if old.name = m.name then m else old).name = old.name := by
  split
  · rename_i h; exact h.symm
  · rfl

theorem replace_names (d : Design) (m : Module) :
    (d.replace m).modules.map (·.name) = d.modules.map (·.name) := by
  unfold replace
  rw [List.map_map]
  exact List.map_congr_left fun old _ => name_replaced m old

theorem find?_replace {d : Design} {m old : Module} (ho : d.find? m.name = some old)
    (name : String) :
    (d.replace m).find? name = if name = m.name then some m else d.find? name := by
  have hp : ((·.name == name) ∘ fun old : Module => if old.name = m.name then m else old) =
      fun x => x.name == name := by
    funext x
    simp only [Function.comp_apply, name_replaced]
  have hm : (d.replace m).find? name =
      (d.find? name).map fun old => if old.name = m.name then m else old := by
    unfold find? replace
    rw [List.find?_map, hp]
  rw [hm]
  by_cases hn : name = m.name
  · rw [if_pos hn, hn, ho, Option.map_some, if_pos (name_of_find? ho)]
  · rw [if_neg hn]
    cases hx : d.find? name with
    | none => rfl
    | some x =>
      have hne : x.name ≠ m.name := fun he => hn (name_of_find? hx ▸ he)
      rw [Option.map_some, if_neg hne]

end Design

theorem direction_ofDesign (d : Design) (c : Cell) (port : String) :
    (Signatures.ofDesign d).direction c port = match d.find? c.type with
      | some m => ((Signatures.ofModule m).find? (·.1 == port)).map (·.2)
      | none => c.directions.get? port := by
  unfold Signatures.direction Signatures.ofDesign Design.find?
  dsimp only
  rw [List.find?_map]
  have hp : ((fun q : String × List (String × Direction) => q.1 == c.type) ∘
      fun m : Module => (m.name, Signatures.ofModule m)) = fun m => m.name == c.type := rfl
  rw [hp]
  cases d.modules.find? (fun m => m.name == c.type) <;> rfl

end ClockNet

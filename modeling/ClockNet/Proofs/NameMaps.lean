import ClockNet.Proofs.Growth
import ClockNet.Proofs.Ports
import ClockNet.Registry
import Mathlib

/-! # The maps of names

Whatever operations have been carried out on a new module, its maps have the names of its wires and
cells, each with its id, and nothing else (`Consistent`): no operation breaks that
(`steps_apply`), and ids that have been handed out stay what they are. So look-ups find what a
search through the wires and cells finds, and a module without maps goes the same way
(`apply_bare`). A fresh name is found within a bounded number of rounds, and as the counter only
goes up no name is handed out twice, whatever stems are asked for (`numbered_inj`). -/

namespace ClockNet

namespace OrderedTable

/-- Tables with the same names in the same order and the same values are the same. -/
theorem ext_get? {β : Type} {s t : OrderedTable β}
    (hnames : s.entries.map Prod.fst = t.entries.map Prod.fst)
    (hvalues : ∀ name, s.get? name = t.get? name) : s = t := by
  have hread : ∀ t : OrderedTable β, t.entries.map (fun e => (e.1, some e.2)) =
      (t.entries.map Prod.fst).map fun name => (name, t.get? name) := by
    intro t
    rw [List.map_map]
    refine List.map_congr_left ?_
    intro e he
    exact congrArg (Prod.mk e.1) (get?_of_mem he).symm
  have hsame : s.entries.map (fun e => (e.1, some e.2)) =
      t.entries.map fun e => (e.1, some e.2) := by
    rw [hread, hread, hnames, funext hvalues]
  refine ext (List.map_injective_iff.mpr ?_ hsame)
  intro e e' he
  obtain ⟨hname, hvalue⟩ := Prod.mk.inj he
  exact Prod.ext hname (Option.some.inj hvalue)

theorem names_set_of_get? {β : Type} {t : OrderedTable β} {name : String} {old : β}
    (h : t.get? name = some old) (value : β) :
    (t.set name value).entries.map Prod.fst = t.entries.map Prod.fst := by
  rw [names_set, if_pos]
  exact List.mem_map_of_mem (mem_of_get? h)

end OrderedTable

/-! ## Names in a list and in a map -/

/-- The map has each name of the list, at its place, and no other one. -/
def Indexes (t : OrderedTable Nat) (names : List String) : Prop :=
  ∀ name id, t.get? name = some id ↔ names[id]? = some name

namespace Indexes
variable {t : OrderedTable Nat} {names : List String}

theorem nil : Indexes .empty [] := by
  intro name id
  simp [OrderedTable.get?, OrderedTable.empty]

theorem get?_eq_none (h : Indexes t names) {name : String} :
    t.get? name = none ↔ name ∉ names := by
  rw [Option.eq_none_iff_forall_ne_some, List.mem_iff_getElem?, not_exists]
  exact forall_congr' fun id => not_congr (h name id)

theorem nodup (h : Indexes t names) : names.Nodup := by
  refine List.nodup_iff_injective_getElem.mpr ?_
  rintro ⟨i, hi⟩ ⟨j, hj⟩ he
  have hi' := (h names[i] i).mpr (List.getElem?_eq_getElem hi)
  have hj' := (h names[j] j).mpr (List.getElem?_eq_getElem hj)
  dsimp only at he
  rw [he, hj'] at hi'
  exact Fin.ext (Option.some.inj hi').symm

theorem concat (h : Indexes t names) {name : String} (hn : name ∉ names) :
    Indexes (t.set name names.length) (names ++ [name]) := by
  intro other id
  rw [OrderedTable.get?_set]
  by_cases ho : other = name
  · subst ho
    rw [if_pos rfl, Option.some.injEq]
    constructor
    · rintro rfl
      simp
    · intro hid
      rcases Nat.lt_or_ge id names.length with hlt | hge
      · rw [List.getElem?_append_left hlt] at hid
        exact absurd (List.mem_of_getElem? hid) hn
      · rw [List.getElem?_append_right hge] at hid
        have := (List.getElem?_eq_some_iff.mp hid).1
        simp at this
        omega
  · rw [if_neg ho, h other id]
    constructor
    · intro hid
      rw [List.getElem?_append_left (List.getElem?_eq_some_iff.mp hid).1]
      exact hid
    · intro hid
      rcases Nat.lt_or_ge id names.length with hlt | hge
      · rwa [List.getElem?_append_left hlt] at hid
      · rw [List.getElem?_append_right hge] at hid
        have hmem := List.mem_of_getElem? hid
        exact absurd (List.mem_singleton.mp hmem) ho

/-- Exchanging what the map has for two names, with the names at the two places exchanged too. -/
theorem swap (h : Indexes t names) {a b : Nat} {nameA nameB : String}
    (ha : names[a]? = some nameA) (hb : names[b]? = some nameB) {names' : List String}
    (hnames : ∀ id, names'[id]? = names[Equiv.swap a b id]?) :
    Indexes ((t.set nameA b).set nameB a) names' := by
  have hmap : ∀ name id, ((t.set nameA b).set nameB a).get? name = some id ↔
      t.get? name = some (Equiv.swap a b id) := by
    intro name id
    rw [OrderedTable.get?_set, OrderedTable.get?_set]
    by_cases hnb : name = nameB
    · subst hnb
      rw [if_pos rfl, (h name b).mpr hb, Option.some.injEq, Option.some.injEq,
        eq_comm (a := b), Equiv.swap_apply_eq_iff, Equiv.swap_apply_right, eq_comm]
    · by_cases hna : name = nameA
      · subst hna
        rw [if_neg hnb, if_pos rfl, (h name a).mpr ha, Option.some.injEq, Option.some.injEq,
          eq_comm (a := a), Equiv.swap_apply_eq_iff, Equiv.swap_apply_left, eq_comm]
      · rw [if_neg hnb, if_neg hna]
        have hother : ∀ id, t.get? name = some id → id ≠ a ∧ id ≠ b := by
          intro id hid
          rw [h name id] at hid
          refine ⟨?_, ?_⟩
          · rintro rfl
            exact hna (Option.some.inj (hid.symm.trans ha))
          · rintro rfl
            exact hnb (Option.some.inj (hid.symm.trans hb))
        constructor
        · intro hid
          rw [hid, Equiv.swap_apply_of_ne_of_ne (hother id hid).1 (hother id hid).2]
        · intro hid
          have hback := Equiv.swap_apply_of_ne_of_ne (hother _ hid).1 (hother _ hid).2
          rw [Equiv.swap_apply_self] at hback
          rw [hid, ← hback]
  intro name id
  rw [hmap, hnames]
  exact h name _

end Indexes

namespace Module

/-! ## Names in a module -/

theorem getElem?_names {m : Module} {id : WireId} {name : String} :
    (m.wires.map (·.name))[id]? = some name ↔
      id < m.wires.length ∧ (m.wire id).name = name := by
  rw [List.getElem?_map, Option.map_eq_some_iff]
  unfold wire
  constructor
  · intro h
    obtain ⟨w, hw, rfl⟩ := h
    exact ⟨(List.getElem?_eq_some_iff.mp hw).1, by rw [hw]; rfl⟩
  · intro h
    obtain ⟨hid, rfl⟩ := h
    exact ⟨m.wires[id], List.getElem?_eq_getElem hid, by rw [List.getElem?_eq_getElem hid]; rfl⟩

theorem getElem?_cellNames {m : Module} {id : CellId} {name : String} :
    (m.cells.map (·.name))[id]? = some name ↔
      id < m.cells.length ∧ (m.cell id).name = name := by
  rw [List.getElem?_map, Option.map_eq_some_iff]
  unfold cell
  constructor
  · intro h
    obtain ⟨c, hc, rfl⟩ := h
    exact ⟨(List.getElem?_eq_some_iff.mp hc).1, by rw [hc]; rfl⟩
  · intro h
    obtain ⟨hid, rfl⟩ := h
    exact ⟨m.cells[id], List.getElem?_eq_getElem hid, by rw [List.getElem?_eq_getElem hid]; rfl⟩

/-- A wire that keeps what `g` reads when it is changed keeps it in the list of all wires. -/
theorem map_modifyWire {β : Type} (m : Module) (id : WireId) {f : Wire → Wire} {g : Wire → β}
    (hf : g (f (m.wire id)) = g (m.wire id)) : (m.modifyWire id f).wires.map g = m.wires.map g := by
  refine List.ext_getElem? fun i => ?_
  unfold modifyWire wire at *
  rw [List.getElem?_map, List.getElem?_map, List.getElem?_modify]
  cases hw : m.wires[i]? with
  | none => rfl
  | some w =>
    by_cases hi : id = i
    · subst hi
      rw [hw] at hf
      simpa using hf
    · simp [hi]

theorem map_modifyCell {β : Type} (m : Module) (id : CellId) {f : Cell → Cell} {g : Cell → β}
    (hf : g (f (m.cell id)) = g (m.cell id)) : (m.modifyCell id f).cells.map g = m.cells.map g := by
  refine List.ext_getElem? fun i => ?_
  unfold modifyCell cell at *
  rw [List.getElem?_map, List.getElem?_map, List.getElem?_modify]
  cases hc : m.cells[i]? with
  | none => rfl
  | some c =>
    by_cases hi : id = i
    · subst hi
      rw [hc] at hf
      simpa using hf
    · simp [hi]

theorem map_renumberPorts {β : Type} (m : Module) {g : Wire → β}
    (hg : ∀ (w : Wire) (position : Nat), g { w with position } = g w) :
    m.renumberPorts.wires.map g = m.wires.map g := by
  refine List.ext_getElem? fun i => ?_
  unfold renumberPorts
  rw [List.getElem?_map, List.getElem?_map, List.getElem?_mapIdx, Option.map_map]
  congr 1
  funext w
  exact hg w _

theorem map_swapNames {β : Type} (m : Module) (a b : WireId) {g : Wire → β}
    (hg : ∀ (w : Wire) (name : String), g { w with name } = g w) :
    (m.swapNames a b).wires.map g = m.wires.map g :=
  (map_modifyWire _ b (hg _ _)).trans (map_modifyWire m a (hg _ _))

theorem wire_swapNames {m : Module} {a b : WireId} (ha : a < m.wires.length)
    (hb : b < m.wires.length) (id : WireId) : (m.swapNames a b).wire id =
      { m.wire id with name := (m.wire (Equiv.swap a b id)).name } := by
  unfold swapNames
  simp only [wire_modifyWire, length_modifyWire]
  rw [Equiv.swap_apply_def]
  by_cases hia : id = a
  · subst hia
    by_cases hib : b = id
    · subst hib
      simp [ha]
    · simp [hib, ha]
  · by_cases hib : id = b
    · subst hib
      simp [hia, hb, Ne.symm (Ne.intro hia)]
    · simp [hia, hib, Ne.symm (Ne.intro hia), Ne.symm (Ne.intro hib)]

theorem length_swapNames (m : Module) (a b : WireId) :
    (m.swapNames a b).wires.length = m.wires.length := by
  unfold swapNames
  rw [length_modifyWire, length_modifyWire]

theorem swap_lt {n a b : Nat} (ha : a < n) (hb : b < n) (id : Nat) :
    Equiv.swap a b id < n ↔ id < n := by
  rw [Equiv.swap_apply_def]
  split
  · rename_i h
    exact iff_of_true hb (h ▸ ha)
  · split
    · rename_i h
      exact iff_of_true ha (h ▸ hb)
    · rfl

theorem names_swapNames {m : Module} {a b : WireId} (ha : a < m.wires.length)
    (hb : b < m.wires.length) (id : WireId) : ((m.swapNames a b).wires.map (·.name))[id]? =
      (m.wires.map (·.name))[Equiv.swap a b id]? := by
  refine Option.ext fun name => ?_
  rw [getElem?_names, getElem?_names, wire_swapNames ha hb, length_swapNames, swap_lt ha hb]

theorem swapNames_self (m : Module) (a : WireId) : m.swapNames a a = m := by
  refine ext_wire rfl rfl (length_swapNames m a a) (fun id => ?_) rfl rfl rfl rfl
  unfold swapNames
  simp only [wire_modifyWire, length_modifyWire]
  split
  · rename_i h
    rw [h.1]
  · rfl

theorem swapNames_swapNames {m : Module} {a b : WireId} (ha : a < m.wires.length)
    (hb : b < m.wires.length) : (m.swapNames a b).swapNames a b = m := by
  refine ext_wire rfl rfl ?_ (fun id => ?_) rfl rfl rfl rfl
  · rw [length_swapNames, length_swapNames]
  · rw [wire_swapNames (by rwa [length_swapNames]) (by rwa [length_swapNames]),
      wire_swapNames ha hb, wire_swapNames ha hb, Equiv.swap_apply_self]

/-! ## Fresh names -/

/-- A name with a number shows the number, whatever its stem: no digit is a dollar sign. -/
theorem numbered_inj {stem stem' : String} {n n' : Nat}
    (h : numbered stem n = numbered stem' n') : n = n' := by
  have hdigits : ∀ (stem : String) (n : Nat),
      (numbered stem n).toList.reverse.takeWhile (· ≠ '$') = (Nat.toDigits 10 n).reverse := by
    intro stem n
    have hpos : ∀ c ∈ (Nat.toDigits 10 n).reverse, decide (c ≠ '$') = true := by
      intro c hc
      have hdigit := Nat.isDigit_of_mem_toDigits (by omega) (by omega) (List.mem_reverse.mp hc)
      refine decide_eq_true ?_
      rintro rfl
      cases hdigit
    have htext : (numbered stem n).toList.reverse =
        (Nat.toDigits 10 n).reverse ++ '$' :: stem.toList.reverse := by
      simp [numbered, Nat.toString_eq_repr, Nat.toList_repr]
    rw [htext, List.takeWhile_append_of_pos hpos, List.takeWhile_cons_of_neg (by simp),
      List.append_nil]
  have hsame := hdigits stem n
  rw [h, hdigits] at hsame
  rw [← Nat.ofDigitChars_toDigits (n := n) (b := 10) (by omega) (by omega),
    ← List.reverse_injective hsame, Nat.ofDigitChars_toDigits (by omega) (by omega)]

end Module

namespace Registry

/-! ## Consistent maps -/

/-- The maps have the names of the wires and of the cells. -/
structure Consistent (r : Registry) : Prop where
  wires : Indexes r.wireNames (r.module.wires.map (·.name))
  cells : Indexes r.cellNames (r.module.cells.map (·.name))

section
variable {r r' : Registry}

theorem consistent_new (name : String) : Consistent (new name) := ⟨.nil, .nil⟩

theorem Consistent.findWire_iff (h : Consistent r) {name : String} {id : WireId} :
    r.findWire name = some id ↔ id < r.module.wires.length ∧ (r.module.wire id).name = name :=
  (h.wires name id).trans Module.getElem?_names

theorem Consistent.findCell_iff (h : Consistent r) {name : String} {id : CellId} :
    r.findCell name = some id ↔ id < r.module.cells.length ∧ (r.module.cell id).name = name :=
  (h.cells name id).trans Module.getElem?_cellNames

/-- The map finds what a search through the wires finds. -/
theorem Consistent.findWire_eq (h : Consistent r) (name : String) :
    r.findWire name = r.module.findWire name := by
  refine Option.ext fun id => ?_
  rw [h.findWire_iff]
  constructor
  · rintro ⟨hid, rfl⟩
    exact Module.findWire_name h.wires.nodup hid
  · exact Module.name_of_findWire

theorem Consistent.findCell_eq (h : Consistent r) (name : String) :
    r.findCell name = r.module.findCell name := by
  refine Option.ext fun id => ?_
  rw [h.findCell_iff]
  constructor
  · rintro ⟨hid, rfl⟩
    exact Module.findCell_name h.cells.nodup hid
  · exact Module.name_of_findCell

theorem Consistent.unused_iff (h : Consistent r) (name : String) :
    ((r.findWire name).isNone && (r.findCell name).isNone) = true ↔ name ∉ r.module.names := by
  rw [Bool.and_eq_true, Option.isNone_iff_eq_none, Option.isNone_iff_eq_none, findWire, findCell,
    h.wires.get?_eq_none, h.cells.get?_eq_none, Module.names, List.mem_append, not_or]

/-! ## Fresh names -/

theorem Consistent.freshName_unusedNumber (h : Consistent r) {stem : String} {tries n : Nat}
    (hn : Module.unusedNumber r.module.names stem tries r.module.nextNumber = n)
    (hunused : Module.numbered stem n ∉ r.module.names) : r.freshName stem =
      some (Module.numbered stem n, r.withModule ({ · with nextNumber := n + 1 })) := by
  subst hn
  induction tries generalizing r with
  | zero =>
    rw [freshName, if_pos]
    · rfl
    · exact (h.unused_iff _).mpr hunused
  | succ tries ih =>
    rw [Module.unusedNumber] at hunused ⊢
    by_cases hn : Module.numbered stem r.module.nextNumber ∈ r.module.names
    · rw [if_pos hn] at hunused ⊢
      rw [freshName]
      refine (if_neg fun hfree => (h.unused_iff _).mp hfree hn).trans ?_
      exact ih (r := r.withModule ({ · with nextNumber := r.module.nextNumber + 1 }))
        ⟨h.wires, h.cells⟩ hunused
    · rw [if_neg hn]
      rw [freshName, if_pos]
      · rfl
      · exact (h.unused_iff _).mpr hn

/-- The search for a fresh name ends, with the name that a bounded search finds. -/
theorem Consistent.freshName_eq (h : Consistent r) (stem : String) : r.freshName stem =
    some ((r.module.freshName stem).1, r.withModule fun m => (m.freshName stem).2) :=
  h.freshName_unusedNumber rfl (Module.unusedNumber_not_mem _ _ _)

/-! ## One operation -/

/-- The wires of a module are there in another one, with their widths, and the cells with their
names. -/
structure Retains (m m' : Module) : Prop where
  widths : m.wires.map (·.width) <+: m'.wires.map (·.width)
  cells : m.cells.map (·.name) <+: m'.cells.map (·.name)

theorem Retains.refl (m : Module) : Retains m m := ⟨List.prefix_rfl, List.prefix_rfl⟩

theorem Retains.trans {m m' m'' : Module} (h : Retains m m') (h' : Retains m' m'') :
    Retains m m'' := ⟨h.widths.trans h'.widths, h.cells.trans h'.cells⟩

/-- What stands in a list is, as far as `f` tells, what stands there in a longer one. -/
theorem getElem_of_map_prefix {α β : Type} {f : α → β} {l l' : List α}
    (h : l.map f <+: l'.map f) {i : Nat} (hi : i < l.length) :
    ∃ hi' : i < l'.length, f l'[i] = f l[i] := by
  have hle := h.length_le
  rw [List.length_map, List.length_map] at hle
  have he := h.getElem (by rwa [List.length_map])
  rw [List.getElem_map, List.getElem_map] at he
  exact ⟨Nat.lt_of_lt_of_le hi hle, he.symm⟩

theorem Retains.wire {m m' : Module} (h : Retains m m') {id : WireId}
    (hid : id < m.wires.length) :
    id < m'.wires.length ∧ (m'.wire id).width = (m.wire id).width := by
  obtain ⟨hlen, hw⟩ := getElem_of_map_prefix h.widths hid
  rw [Module.wire_eq_getElem hid, Module.wire_eq_getElem hlen]
  exact ⟨hlen, hw⟩

theorem Retains.cell {m m' : Module} (h : Retains m m') {id : CellId}
    (hid : id < m.cells.length) :
    id < m'.cells.length ∧ (m'.cell id).name = (m.cell id).name := by
  obtain ⟨hlen, hc⟩ := getElem_of_map_prefix h.cells hid
  rw [Module.cell_eq_getElem hid, Module.cell_eq_getElem hlen]
  exact ⟨hlen, hc⟩

/-- The name carries a number that the counter has passed between two states. -/
def NumberedBetween (n n' : Nat) (text : String) : Prop :=
  ∃ stem k, text = Module.numbered stem k ∧ n ≤ k ∧ k < n'

/-- What an operation does, whichever it is. -/
structure Step (r : Registry) (reply : Reply) (r' : Registry) : Prop where
  consistent : r'.Consistent
  retains : Retains r.module r'.module
  counter : r.module.nextNumber ≤ r'.module.nextNumber
  handed : ∀ id, (reply = .wire id → id < r'.module.wires.length) ∧
    (reply = .cell id → id < r'.module.cells.length)
  fresh : ∀ text, reply.name? = some text →
    text ∉ r.module.names ∧ NumberedBetween r.module.nextNumber r'.module.nextNumber text

/-- An operation that leaves the maps and the names, and hands out nothing. -/
theorem Consistent.step_done (h : Consistent r) (hwires : r'.wireNames = r.wireNames)
    (hcells : r'.cellNames = r.cellNames)
    (hwireNames : r'.module.wires.map (·.name) = r.module.wires.map (·.name))
    (hcellNames : r'.module.cells.map (·.name) = r.module.cells.map (·.name))
    (hwidths : r'.module.wires.map (·.width) = r.module.wires.map (·.width))
    (hnext : r'.module.nextNumber = r.module.nextNumber) : Step r .done r' := by
  refine ⟨⟨?_, ?_⟩, ⟨?_, ?_⟩, hnext.ge, fun id => ⟨nofun, nofun⟩, nofun⟩
  · rw [hwires, hwireNames]
    exact h.wires
  · rw [hcells, hcellNames]
    exact h.cells
  · rewrite [hwidths]
    exact List.prefix_rfl
  · rewrite [hcellNames]
    exact List.prefix_rfl

theorem Consistent.step_addWire (h : Consistent r) {w : Wire} {id : WireId}
    (he : r.addWire w = some (id, r')) : Step r (.wire id) r' := by
  unfold addWire at he
  split at he
  · cases he
  · rename_i hfree
    cases he
    have hnew : w.name ∉ r.module.wires.map (·.name) :=
      h.wires.get?_eq_none.mp (Option.not_isSome_iff_eq_none.mp hfree)
    have hmap := h.wires.concat hnew
    rw [List.length_map] at hmap
    refine ⟨⟨?_, h.cells⟩, ⟨?_, List.prefix_rfl⟩, Nat.le_refl _, fun id => ⟨?_, nofun⟩, nofun⟩
    · simpa [Module.addWire] using hmap
    · simp [Module.addWire]
    · rintro ⟨⟩
      simp [Module.addWire]

theorem Consistent.step_addCell (h : Consistent r) {c : Cell} {id : CellId}
    (he : r.addCell c = some (id, r')) : Step r (.cell id) r' := by
  unfold addCell at he
  split at he
  · cases he
  · rename_i hfree
    cases he
    have hnew : c.name ∉ r.module.cells.map (·.name) :=
      h.cells.get?_eq_none.mp (Option.not_isSome_iff_eq_none.mp hfree)
    have hmap := h.cells.concat hnew
    rw [List.length_map] at hmap
    refine ⟨⟨h.wires, ?_⟩, ⟨List.prefix_rfl, ?_⟩, Nat.le_refl _, fun id => ⟨nofun, ?_⟩, nofun⟩
    · simpa [Module.addCell] using hmap
    · simp [Module.addCell]
    · rintro ⟨⟩
      simp [Module.addCell]

theorem Consistent.step_freshName (h : Consistent r) {stem text : String}
    (he : r.freshName stem = some (text, r')) : Step r (.name text) r' := by
  rw [h.freshName_eq] at he
  cases he
  refine ⟨⟨h.wires, h.cells⟩, ⟨List.prefix_rfl, List.prefix_rfl⟩, ?_,
    fun id => ⟨nofun, nofun⟩, ?_⟩
  · exact Nat.le_succ_of_le (Module.unusedNumber_cases _ _ _ _).1
  · intro text ht
    cases ht
    exact ⟨Module.freshName_not_mem _ _, stem, _, rfl, (Module.unusedNumber_cases _ _ _ _).1,
      Nat.lt_succ_self _⟩

theorem Consistent.step_swapNames (h : Consistent r) {a b : WireId}
    (he : r.swapNames a b = some r') : Step r .done r' := by
  unfold swapNames at he
  split at he
  · cases he
    exact h.step_done rfl rfl rfl rfl rfl rfl
  · split at he
    · rename_i hlt
      obtain ⟨ha, hb⟩ := hlt
      cases he
      have hmap := h.wires.swap (Module.getElem?_names.mpr ⟨ha, rfl⟩)
        (Module.getElem?_names.mpr ⟨hb, rfl⟩) (Module.names_swapNames ha hb)
      refine ⟨⟨hmap, h.cells⟩, ⟨?_, List.prefix_rfl⟩, Nat.le_refl _, fun id => ⟨nofun, nofun⟩,
        nofun⟩
      rewrite [Module.map_swapNames _ _ _ fun _ _ => rfl]
      exact List.prefix_rfl
    · cases he

/-- Every operation keeps the maps consistent and ids what they are. -/
theorem Consistent.step_apply (h : Consistent r) {e : Edit} {reply : Reply}
    (he : e.apply r = some (reply, r')) : Step r reply r' := by
  cases e with
  | addWire name width =>
    obtain ⟨p, hp, hq⟩ := Option.map_eq_some_iff.mp he
    cases hq
    exact h.step_addWire hp
  | addWireLike name template =>
    obtain ⟨p, hp, hq⟩ := Option.map_eq_some_iff.mp he
    cases hq
    unfold addWireLike at hp
    split at hp
    · exact h.step_addWire hp
    · cases hp
  | addCell name type =>
    obtain ⟨p, hp, hq⟩ := Option.map_eq_some_iff.mp he
    cases hq
    exact h.step_addCell hp
  | freshName stem =>
    obtain ⟨p, hp, hq⟩ := Option.map_eq_some_iff.mp he
    cases hq
    exact h.step_freshName hp
  | swapNames a b =>
    obtain ⟨p, hp, hq⟩ := Option.map_eq_some_iff.mp he
    cases hq
    exact h.step_swapNames hp
  | connect driven driver =>
    obtain ⟨m, hm, hq⟩ := Option.map_eq_some_iff.mp he
    cases hq
    unfold Module.connect? at hm
    split at hm
    · cases hm
      exact h.step_done rfl rfl rfl rfl rfl rfl
    · cases hm
  | setPort cell port signal =>
    dsimp only [Edit.apply] at he
    split at he
    · cases he
      exact h.step_done rfl rfl rfl (Module.map_modifyCell _ _ rfl) rfl rfl
    · cases he
  | setFlags wire flags =>
    dsimp only [Edit.apply] at he
    split at he
    · cases he
      exact h.step_done rfl rfl (Module.map_modifyWire _ _ rfl) rfl
        (Module.map_modifyWire _ _ rfl) rfl
    · cases he
  | renumberPorts =>
    cases he
    exact h.step_done rfl rfl (Module.map_renumberPorts _ fun _ _ => rfl) rfl
      (Module.map_renumberPorts _ fun _ _ => rfl) rfl

/-! ## Which operations are carried out -/

/-- Names are unused, ids in range and the two signals of one length. -/
def Fits (m : Module) : Edit → Prop
  | .addWire name _ => name ∉ m.wires.map (·.name)
  | .addWireLike name template => template < m.wires.length ∧ name ∉ m.wires.map (·.name)
  | .addCell name _ => name ∉ m.cells.map (·.name)
  | .freshName _ | .renumberPorts => True
  | .swapNames a b => a = b ∨ a < m.wires.length ∧ b < m.wires.length
  | .connect driven driver => driven.length = driver.length
  | .setPort cell _ _ => cell < m.cells.length
  | .setFlags wire _ => wire < m.wires.length

theorem Consistent.isSome_addWire (h : Consistent r) (w : Wire) :
    (r.addWire w).isSome = true ↔ w.name ∉ r.module.wires.map (·.name) := by
  rw [← h.wires.get?_eq_none, ← Option.not_isSome_iff_eq_none]
  unfold addWire findWire
  split <;> simp [*]

theorem Consistent.isSome_addCell (h : Consistent r) (c : Cell) :
    (r.addCell c).isSome = true ↔ c.name ∉ r.module.cells.map (·.name) := by
  rw [← h.cells.get?_eq_none, ← Option.not_isSome_iff_eq_none]
  unfold addCell findCell
  split <;> simp [*]

/-- An operation is carried out if it fits; a search for a fresh name always is. -/
theorem Consistent.isSome_apply (h : Consistent r) (e : Edit) :
    (e.apply r).isSome = true ↔ Fits r.module e := by
  cases e with
  | addWire name width =>
    dsimp only [Edit.apply, Fits]
    rw [Option.isSome_map, h.isSome_addWire]
  | addWireLike name template =>
    dsimp only [Edit.apply, Fits]
    rw [Option.isSome_map]
    unfold addWireLike
    split
    · rename_i hlt
      rw [h.isSome_addWire]
      exact (and_iff_right hlt).symm
    · rename_i hge
      exact iff_of_false (by simp) fun hfit => hge hfit.1
  | addCell name type =>
    dsimp only [Edit.apply, Fits]
    rw [Option.isSome_map, h.isSome_addCell]
  | freshName stem =>
    dsimp only [Edit.apply, Fits]
    rw [h.freshName_eq]
    exact iff_of_true rfl trivial
  | swapNames a b =>
    dsimp only [Edit.apply, Fits]
    rw [Option.isSome_map]
    unfold swapNames
    split
    · rename_i hab
      exact iff_of_true rfl (.inl hab)
    · rename_i hab
      rw [or_iff_right hab]
      split <;> simp [*]
  | connect driven driver =>
    dsimp only [Edit.apply, Fits]
    rw [Option.isSome_map]
    unfold Module.connect?
    split <;> simp [*]
  | setPort cell port signal =>
    dsimp only [Edit.apply, Fits]
    split <;> simp [*]
  | setFlags wire flags =>
    dsimp only [Edit.apply, Fits]
    split <;> simp [*]
  | renumberPorts => exact iff_of_true rfl trivial

/-! ## Modules without maps -/

theorem Consistent.addWire_bare (h : Consistent r) (w : Wire) :
    ((r.addWire w).map fun (id, r) => (Reply.wire id, r)).map (fun p => (p.1, p.2.module)) =
      (r.module.addWire? w).map fun m => (.wire r.module.wires.length, m) := by
  unfold addWire Module.addWire?
  rw [h.findWire_eq]
  cases r.module.findWire w.name <;> rfl

theorem Consistent.addCell_bare (h : Consistent r) (c : Cell) :
    ((r.addCell c).map fun (id, r) => (Reply.cell id, r)).map (fun p => (p.1, p.2.module)) =
      (r.module.addCell? c).map fun m => (.cell r.module.cells.length, m) := by
  unfold addCell Module.addCell?
  rw [h.findCell_eq]
  cases r.module.findCell c.name <;> rfl

/-- An operation does to the module, and hands out, what it does without maps. -/
theorem Consistent.apply_bare (h : Consistent r) (e : Edit) :
    (e.apply r).map (fun p => (p.1, p.2.module)) = e.applyBare r.module := by
  cases e with
  | addWire name width => exact h.addWire_bare { name, width }
  | addWireLike name template =>
    dsimp only [Edit.apply, Edit.applyBare]
    unfold addWireLike
    split
    · exact h.addWire_bare _
    · rfl
  | addCell name type => exact h.addCell_bare { name, type }
  | freshName stem =>
    dsimp only [Edit.apply, Edit.applyBare]
    rw [h.freshName_eq]
    rfl
  | swapNames a b =>
    dsimp only [Edit.apply, Edit.applyBare]
    unfold swapNames
    by_cases hab : a = b
    · subst hab
      rw [if_pos rfl, if_pos (.inl rfl), Module.swapNames_self]
      rfl
    · simp only [hab, if_false, false_or]
      split <;> rfl
  | connect driven driver =>
    dsimp only [Edit.apply, Edit.applyBare]
    cases r.module.connect? driven driver <;> rfl
  | setPort cell port signal =>
    dsimp only [Edit.apply, Edit.applyBare]
    split <;> rfl
  | setFlags wire flags =>
    dsimp only [Edit.apply, Edit.applyBare]
    split <;> rfl
  | renumberPorts => rfl

/-! ## Many operations -/

/-- What a sequence of operations does. -/
structure Course (r : Registry) (replies : List Reply) (r' : Registry) : Prop where
  consistent : r'.Consistent
  retains : Retains r.module r'.module
  counter : r.module.nextNumber ≤ r'.module.nextNumber
  handed : ∀ id, (.wire id ∈ replies → id < r'.module.wires.length) ∧
    (.cell id ∈ replies → id < r'.module.cells.length)
  distinct : (replies.filterMap Reply.name?).Nodup
  numbered : ∀ text ∈ replies.filterMap Reply.name?,
    NumberedBetween r.module.nextNumber r'.module.nextNumber text

theorem NumberedBetween.ne {n n' n'' : Nat} {text text' : String}
    (h : NumberedBetween n n' text) (h' : NumberedBetween n' n'' text') : text ≠ text' := by
  obtain ⟨stem, k, rfl, -, hk⟩ := h
  obtain ⟨stem', k', rfl, hk', -⟩ := h'
  intro he
  have := Module.numbered_inj he
  omega

theorem NumberedBetween.mono {n n' k k' : Nat} {text : String} (h : NumberedBetween n n' text)
    (hk : k ≤ n) (hk' : n' ≤ k') : NumberedBetween k k' text := by
  obtain ⟨stem, i, he, hi, hi'⟩ := h
  exact ⟨stem, i, he, hk.trans hi, hi'.trans_le hk'⟩

theorem Course.cons {r₁ : Registry} {reply : Reply} {replies : List Reply}
    (hs : Step r reply r₁) (hc : Course r₁ replies r') : Course r (reply :: replies) r' := by
  refine ⟨hc.consistent, hs.retains.trans hc.retains, hs.counter.trans hc.counter,
    fun id => ⟨fun hmem => ?_, fun hmem => ?_⟩, ?_, ?_⟩
  · rcases List.mem_cons.mp hmem with he | hmem
    · exact (hc.retains.wire ((hs.handed id).1 he.symm)).1
    · exact (hc.handed id).1 hmem
  · rcases List.mem_cons.mp hmem with he | hmem
    · exact (hc.retains.cell ((hs.handed id).2 he.symm)).1
    · exact (hc.handed id).2 hmem
  · rw [List.filterMap_cons]
    cases hname : reply.name? with
    | none => exact hc.distinct
    | some text =>
      refine List.nodup_cons.mpr ⟨fun hmem => ?_, hc.distinct⟩
      exact (hs.fresh text hname).2.ne (hc.numbered text hmem) rfl
  · intro text htext
    rw [List.filterMap_cons] at htext
    cases hname : reply.name? with
    | none =>
      rw [hname] at htext
      exact (hc.numbered text htext).mono hs.counter (Nat.le_refl _)
    | some first =>
      rw [hname] at htext
      rcases List.mem_cons.mp htext with rfl | htext
      · exact (hs.fresh text hname).2.mono (Nat.le_refl _) hc.counter
      · exact (hc.numbered text htext).mono hs.counter (Nat.le_refl _)

theorem Consistent.course_perform (h : Consistent r) {es : List Edit} {replies : List Reply}
    (he : Edit.perform Edit.apply es r = some (replies, r')) : Course r replies r' := by
  induction es generalizing r replies with
  | nil =>
    cases he
    exact ⟨h, .refl _, Nat.le_refl _, fun id => ⟨nofun, nofun⟩, List.nodup_nil, nofun⟩
  | cons e rest ih =>
    obtain ⟨⟨reply, r₁⟩, hfirst, he⟩ := Option.bind_eq_some_iff.mp he
    obtain ⟨⟨replies', r₂⟩, hrest, he⟩ := Option.bind_eq_some_iff.mp he
    cases he
    have hs := h.step_apply hfirst
    exact .cons hs (ih hs.consistent hrest)

theorem Consistent.perform_bare (h : Consistent r) (es : List Edit) :
    (Edit.perform Edit.apply es r).map (fun p => (p.1, p.2.module)) =
      Edit.perform Edit.applyBare es r.module := by
  induction es generalizing r with
  | nil => rfl
  | cons e rest ih =>
    unfold Edit.perform
    rw [← h.apply_bare e]
    cases hfirst : e.apply r with
    | none => rfl
    | some p =>
      obtain ⟨reply, r₁⟩ := p
      have hrest := ih (h.step_apply hfirst).consistent
      simp only [Option.bind_eq_bind, Option.bind_some, Option.map_some]
      rw [← hrest]
      cases Edit.perform Edit.apply rest r₁ <;> rfl

/-! ## Exchanging names -/

/-- What exchanging the names of two wires does: the names change places, the map follows, and
exchanging them again restores all. -/
structure Exchanged (r : Registry) (a b : WireId) (r' : Registry) : Prop where
  left : r'.module.wire a = { r.module.wire a with name := (r.module.wire b).name }
  right : r'.module.wire b = { r.module.wire b with name := (r.module.wire a).name }
  others : ∀ id, id ≠ a → id ≠ b → r'.module.wire id = r.module.wire id
  found : ∀ name, name ≠ (r.module.wire a).name → name ≠ (r.module.wire b).name →
    r'.findWire name = r.findWire name
  rest : r' = { r with
    module := { r.module with wires := r'.module.wires }, wireNames := r'.wireNames }
  back : r'.swapNames a b = some r

theorem exchanged_self (r : Registry) (a : WireId) : Exchanged r a a r :=
  ⟨rfl, rfl, fun _ _ _ => rfl, fun _ _ _ => rfl, rfl, if_pos rfl⟩

theorem Consistent.keys_swapNames (h : Consistent r) {a b : WireId}
    (he : r.swapNames a b = some r') :
    r'.wireNames.entries.map Prod.fst = r.wireNames.entries.map Prod.fst := by
  unfold swapNames at he
  split at he
  · cases he
    rfl
  · split at he
    · rename_i hlt
      cases he
      have hfindA := h.findWire_iff.mpr ⟨hlt.1, rfl⟩
      have hfindB := h.findWire_iff.mpr ⟨hlt.2, rfl⟩
      have hkeyB : ∃ id, (r.wireNames.set (r.module.wire a).name b).get?
          (r.module.wire b).name = some id := by
        rw [OrderedTable.get?_set]
        split
        · exact ⟨b, rfl⟩
        · exact ⟨b, hfindB⟩
      obtain ⟨id, hkeyB⟩ := hkeyB
      exact (OrderedTable.names_set_of_get? hkeyB a).trans
        (OrderedTable.names_set_of_get? hfindA b)
    · cases he

theorem Consistent.exchanged (h : Consistent r) {a b : WireId} (hab : a ≠ b)
    (ha : a < r.module.wires.length) (hb : b < r.module.wires.length) :
    ∃ r', r.swapNames a b = some r' ∧ Exchanged r a b r' := by
  let nameA := (r.module.wire a).name
  let nameB := (r.module.wire b).name
  let r' : Registry := { r with
    module := r.module.swapNames a b
    wireNames := (r.wireNames.set nameA b).set nameB a }
  have hswap : r.swapNames a b = some r' := (if_neg hab).trans (if_pos ⟨ha, hb⟩)
  have hwire : ∀ id, r'.module.wire id =
      { r.module.wire id with name := (r.module.wire (Equiv.swap a b id)).name } :=
    Module.wire_swapNames ha hb
  have hlen : r'.module.wires.length = r.module.wires.length := Module.length_swapNames _ _ _
  refine ⟨r', hswap, ?_, ?_, ?_, ?_, rfl, ?_⟩
  · rw [hwire, Equiv.swap_apply_left]
  · rw [hwire, Equiv.swap_apply_right]
  · intro id hia hib
    rw [hwire, Equiv.swap_apply_of_ne_of_ne hia hib]
  · intro name hna hnb
    show ((r.wireNames.set nameA b).set nameB a).get? name = r.wireNames.get? name
    rw [OrderedTable.get?_set, if_neg hnb, OrderedTable.get?_set, if_neg hna]
  · -- exchanged twice, the wires are what they were; so are the names that the map has, and
    -- consistent maps of the same wires have the same ids
    let r'' : Registry := { r' with
      module := r'.module.swapNames a b
      wireNames := (r'.wireNames.set (r'.module.wire a).name b).set (r'.module.wire b).name a }
    have hswap' : r'.swapNames a b = some r'' :=
      (if_neg hab).trans (if_pos ⟨hlen.symm ▸ ha, hlen.symm ▸ hb⟩)
    have h' : r'.Consistent := (h.step_swapNames hswap).consistent
    have h'' : r''.Consistent := (h'.step_swapNames hswap').consistent
    have hmodule : r''.module = r.module := Module.swapNames_swapNames ha hb
    have hmap : r''.wireNames = r.wireNames := by
      refine OrderedTable.ext_get?
        ((h'.keys_swapNames hswap').trans (h.keys_swapNames hswap)) fun name => ?_
      refine Option.ext fun id => (h''.wires name id).trans ?_
      rw [hmodule]
      exact (h.wires name id).symm
    have hback : r'' = r := by
      show Registry.mk r''.module r''.wireNames r.cellNames = r
      rw [hmodule, hmap]
    rw [hswap', hback]

/-! ## The invariant -/

/-- What holds of a module and its maps when operations have handed out `replies`. -/
structure Indexed (replies : List Reply) (r : Registry) : Prop where
  wires : ∀ name id, r.findWire name = some id ↔
    id < r.module.wires.length ∧ (r.module.wire id).name = name
  cells : ∀ name id, r.findCell name = some id ↔
    id < r.module.cells.length ∧ (r.module.cell id).name = name
  unique : r.module.NamesUnique
  /-- Operations are carried out where they fit. -/
  carried : ∀ e : Edit, (e.apply r).isSome = true ↔ Fits r.module e
  /-- Ids that have been handed out refer to something, -/
  handed : ∀ id, (.wire id ∈ replies → id < r.module.wires.length) ∧
    (.cell id ∈ replies → id < r.module.cells.length)
  /-- and later on to the same. -/
  stable : ∀ es replies' r', Edit.perform Edit.apply es r = some (replies', r') →
    (∀ id < r.module.wires.length, id < r'.module.wires.length ∧
      (r'.module.wire id).width = (r.module.wire id).width) ∧
    ∀ id < r.module.cells.length, id < r'.module.cells.length ∧
      (r'.module.cell id).name = (r.module.cell id).name
  swaps : ∀ a b, a = b ∨ a < r.module.wires.length ∧ b < r.module.wires.length →
    ∃ r', r.swapNames a b = some r' ∧ Exchanged r a b r'
  /-- A search for a fresh name ends with one that is neither in use nor handed out before. -/
  fresh : ∀ stem, ∃ text r', r.freshName stem = some (text, r') ∧
    text ∉ r.module.wires.map (·.name) ∧ text ∉ r.module.cells.map (·.name) ∧
    text ∉ replies.filterMap Reply.name?
  distinct : (replies.filterMap Reply.name?).Nodup
  /-- Look-ups in the wires and cells themselves find the same. -/
  searched : (∀ name, r.findWire name = r.module.findWire name) ∧
    ∀ name, r.findCell name = r.module.findCell name

/-- Whatever is done to a new module, its maps have exactly the names of its wires and cells, and
all goes as it does without maps. -/
theorem indexed_perform (title : String) {es : List Edit} {replies : List Reply} {r : Registry}
    (h : Edit.perform Edit.apply es (new title) = some (replies, r)) :
    Indexed replies r ∧
      Edit.perform Edit.applyBare es { name := title } = some (replies, r.module) := by
  have hnew := consistent_new title
  have hc := hnew.course_perform h
  have hr := hc.consistent
  refine ⟨⟨fun _ _ => hr.findWire_iff, fun _ _ => hr.findCell_iff,
    ⟨hr.wires.nodup, hr.cells.nodup⟩, hr.isSome_apply, hc.handed, ?_, ?_, ?_, hc.distinct,
    hr.findWire_eq, hr.findCell_eq⟩, ?_⟩
  · intro es' replies' r' h'
    have hlater := (hr.course_perform h').retains
    exact ⟨fun id hid => hlater.wire hid, fun id hid => hlater.cell hid⟩
  · intro a b hab
    by_cases he : a = b
    · subst he
      exact ⟨r, if_pos rfl, exchanged_self r a⟩
    · obtain ⟨ha, hb⟩ := hab.resolve_left he
      exact hr.exchanged he ha hb
  · intro stem
    have hfresh := hr.freshName_eq stem
    obtain ⟨hunused, hnumber⟩ := (hr.step_freshName hfresh).fresh _ rfl
    have hout : (r.module.freshName stem).1 ∉ replies.filterMap Reply.name? := fun hmem =>
      (hc.numbered _ hmem).ne hnumber rfl
    rw [Module.names, List.mem_append, not_or] at hunused
    exact ⟨_, _, hfresh, hunused.1, hunused.2, hout⟩
  · have hbare := hnew.perform_bare es
    rw [h] at hbare
    exact hbare.symm

end

/-- A clock hands its name over to a copy, under a fresh name that a cell has left free. -/
def handover : List Edit :=
  [.addWire "clk" 2, .addCell "$auto$1" "DFF", .freshName "$auto", .addWireLike "$auto$2" 0,
    .swapNames 0 1, .setFlags 1 { isInput := true }, .renumberPorts, .freshName "$auto"]

/-- Two fresh names are handed out, and the name of the clock finds the copy. -/
theorem indexed_perform_handover : ∃ replies r,
    Edit.perform Edit.apply handover (new "top") = some (replies, r) ∧
    replies.filterMap Reply.name? = ["$auto$2", "$auto$3"] ∧
    r.findWire "clk" = some 1 ∧ r.findWire "$auto$2" = some 0 ∧ Indexed replies r := by
  have hbare := (consistent_new "top").perform_bare handover
  have hrun : (Edit.perform Edit.applyBare handover { name := "top" }).map (fun p =>
      (p.1.filterMap Reply.name?, p.2.findWire "clk", p.2.findWire "$auto$2")) =
      some (["$auto$2", "$auto$3"], some 1, some 0) := by cbv
  obtain ⟨⟨replies, m⟩, hperform, hread⟩ := Option.map_eq_some_iff.mp hrun
  obtain ⟨⟨replies, r⟩, h, he⟩ := Option.map_eq_some_iff.mp (hbare.trans hperform)
  cases he
  obtain ⟨hnames, hfound⟩ := Prod.mk.inj hread
  obtain ⟨hclk, hauto⟩ := Prod.mk.inj hfound
  obtain ⟨hindexed, -⟩ := indexed_perform "top" h
  refine ⟨replies, r, h, hnames, ?_, ?_, hindexed⟩
  · rw [hindexed.searched.1]
    exact hclk
  · rw [hindexed.searched.1]
    exact hauto

end Registry

end ClockNet

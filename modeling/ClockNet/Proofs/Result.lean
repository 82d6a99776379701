import ClockNet.Proofs.Quiet

/-! # The design after a run

A run makes of each module what its visit leaves (`modules_endOf`); a module gains cells of the
configured types only (`types_resultOf`), and starts a walk if it did before
(`startsAt_resultOf`). So a second run visits the modules in the same order, except for types that
are set apart: those that the configured types lead to. Where these are black boxes, what is
visited before a module with contents is the same, as far as its instances go
(`visitedBefore_iff`). -/

namespace ClockNet.Buffering

open Insertion

/-- The design after a run. -/
def endOf (o : Options) (d : Design) : Design :=
  (progressAfter o d (moduleOrder d o.selection)).design

/-- What a run makes of a module. -/
def resultOf (o : Options) (d : Design) (m : Module) : Module :=
  if m.isBlackbox = false ∧ m.name ∈ moduleOrder d o.selection then (exitOf o d m).module else m

section
variable {o : Options} {d : Design} {m : Module}

theorem resultOf_blackbox (hb : m.isBlackbox = true) : resultOf o d m = m := by
  unfold resultOf
  rw [if_neg]
  simp [hb]

theorem resultOf_visited (hb : m.isBlackbox = false) (ho : m.name ∈ moduleOrder d o.selection) :
    resultOf o d m = (exitOf o d m).module := if_pos ⟨hb, ho⟩

theorem resultOf_rest (hd : d.NamesUnique) (hm : m ∈ d.modules) :
    (resultOf o d m).name = m.name ∧ (resultOf o d m).isBlackbox = m.isBlackbox := by
  unfold resultOf
  split
  · have hs : (entryIn o d (progressBefore o d m.name) m).Fresh := fresh_entryOf hd hm _
    have hattributes : (exitOf o d m).module.attributes = m.attributes :=
      complete_attributes (e := sceneOf o d m) hs
    refine ⟨complete_name (e := sceneOf o d m) hs, ?_⟩
    unfold Module.isBlackbox
    rw [hattributes]
  · exact ⟨rfl, rfl⟩

/-! ## Modules -/

theorem find?_resultOf (hd : d.NamesUnique) (hm : m ∈ d.modules) :
    (endOf o d).find? m.name = some (resultOf o d m) := by
  have hn := nodup_moduleOrder d o.selection
  by_cases ho : m.name ∈ moduleOrder d o.selection
  · obtain ⟨after, he⟩ := order_eq ho
    have hvisit := find?_visited (o := o) hd hm (he ▸ hn)
    rw [← he] at hvisit
    unfold endOf
    rw [hvisit]
    cases hb : m.isBlackbox with
    | true => rw [resultOf_blackbox hb, if_pos rfl]
    | false =>
      rw [resultOf_visited hb ho, if_neg Bool.false_ne_true]
      rfl
  · have hkeep : resultOf o d m = m := by
      unfold resultOf
      rw [if_neg fun h => ho h.2]
    unfold endOf
    rw [hkeep, find?_unvisited hd hn ho, Design.find?_name hd.names hm]

theorem modules_endOf (hd : d.NamesUnique) :
    (endOf o d).modules = d.modules.map (resultOf o d) := by
  have hnames : (endOf o d).modules.map (·.name) = d.modules.map (·.name) :=
    names_progressAfter o d _
  have hlen : (endOf o d).modules.length = d.modules.length := by
    have h := congrArg List.length hnames
    simpa using h
  refine List.ext_getElem (by rw [hlen, List.length_map]) ?_
  intro i hi hi'
  rw [List.getElem_map]
  have hi'' : i < d.modules.length := hlen ▸ hi
  have hname : (endOf o d).modules[i].name = d.modules[i].name := by
    have h := congrArg (·[i]?) hnames
    simpa [hi, hi''] using h
  have hfind := Design.find?_name (hnames ▸ hd.names) (List.getElem_mem hi)
  rw [hname, find?_resultOf hd (List.getElem_mem hi'')] at hfind
  exact (Option.some.inj hfind).symm

theorem find?_endOf (hd : d.NamesUnique) (name : String) :
    (endOf o d).find? name = (d.find? name).map (resultOf o d) := by
  cases hf : d.find? name with
  | some m =>
    have hname := Design.name_of_find? hf
    subst hname
    exact find?_resultOf hd (Design.mem_of_find? hf)
  | none =>
    rw [Option.map_none]
    refine List.find?_eq_none.mpr ?_
    rw [modules_endOf hd]
    intro x hx
    obtain ⟨m, hm, rfl⟩ := List.mem_map.mp hx
    rw [(resultOf_rest hd hm).1]
    exact List.find?_eq_none.mp hf m hm

/-! ## Signatures -/

theorem namesUnique_endOf (hd : d.NamesUnique) (hp : d.PortsNumbered) :
    (endOf o d).NamesUnique := (ofDesign_progressAfter hd hp _).1

theorem portsNumbered_endOf (hd : d.NamesUnique) (hp : d.PortsNumbered) :
    (endOf o d).PortsNumbered := (ofDesign_progressAfter hd hp _).2.1

theorem signatures_endOf (hd : d.NamesUnique) (hp : d.PortsNumbered) :
    Signatures.ofDesign (endOf o d) = .ofDesign d := (ofDesign_progressAfter hd hp _).2.2

/-! ## Cells -/

theorem types_resultOf (hd : d.NamesUnique) (hm : m ∈ d.modules) :
    ∃ types, (resultOf o d m).cells.map (·.type) = m.cells.map (·.type) ++ types ∧
      ∀ type ∈ types, ∃ spec ∈ o.placeable, type = spec.type := by
  unfold resultOf
  split
  · have hs : (entryIn o d (progressBefore o d m.name) m).Fresh := fresh_entryOf hd hm _
    have hf := fitted_inserted (e := sceneOf o d m) hs
    obtain ⟨rest, hrest⟩ := hf.grown.cells
    have hcells : (exitOf o d m).module.cells.map (·.type) =
        (insertedOf o d m).module.cells.map (·.type) := by
      have hmodule := complete_module (e := sceneOf o d m)
        (s := entryIn o d (progressBefore o d m.name) m)
      unfold exitOf exitIn
      rw [show sceneIn o d (progressBefore o d m.name) m = sceneOf o d m from rfl, hmodule]
      refine List.ext_getElem? ?_
      intro k
      rw [List.getElem?_map, List.getElem?_mapIdx, Option.map_map, List.getElem?_map]
      rfl
    have hinserted : (insertedOf o d m).module.cells = m.cells ++ rest := hrest.symm
    refine ⟨rest.map (·.type), ?_, ?_⟩
    · rw [hcells, hinserted, List.map_append]
    · intro type htype
      obtain ⟨c, hc, rfl⟩ := List.mem_map.mp htype
      obtain ⟨k, hk, rfl⟩ := List.getElem_of_mem hc
      have hlt : m.cells.length + k < (insertedOf o d m).module.cells.length := by
        rw [hinserted, List.length_append]
        omega
      have hcell : (insertedOf o d m).module.cell (m.cells.length + k) = rest[k] := by
        rw [Module.cell_eq_getElem hlt]
        simp [hinserted]
      obtain ⟨id, i, spec, output, feed, -, hspec, hat, -⟩ :=
        hf.cells _ (Nat.le_add_right m.cells.length k) hlt
      obtain ⟨name, hshape⟩ := hat.shape
      refine ⟨spec, mem_placeable_of_mem_parts hspec, ?_⟩
      have hshape' : rest[k] = bufferCell name spec.type spec output feed := hcell ▸ hshape
      rw [hshape']
      rfl
  · exact ⟨[], by simp, by simp⟩

/-! ## Where walks start -/

theorem startsAt_resultOf (hd : d.NamesUnique) (hp : d.PortsNumbered) (hm : m ∈ d.modules) :
    startsAt o.selection (resultOf o d m) = startsAt o.selection m := by
  have hbox := (resultOf_rest (o := o) hd hm).2
  unfold startsAt
  rw [hbox]
  unfold resultOf
  split
  · have hs : (entryIn o d (progressBefore o d m.name) m).Fresh := fresh_entryOf hd hm _
    exact congrArg (!m.isBlackbox && ·) (selected_complete (e := sceneOf o d m) hs (hp m hm))
  · rfl

/-! ## The order of a second run -/

/-- A set of cell types closed under instantiation that has the configured types, and of the
modules only black boxes. -/
structure SetApart (o : Options) (d : Design) (inside : String → Bool) : Prop where
  closed : ClosedUnder inside d
  configured : ∀ spec ∈ o.placeable, inside spec.type = true
  boxes : ∀ t ∈ d.modules, inside t.name = true → t.isBlackbox = true

variable {inside : String → Bool}

theorem SetApart.outside (h : SetApart o d inside) (hm : m ∈ d.modules)
    (hb : m.isBlackbox = false) : inside m.name = false := by
  by_contra hin
  rw [h.boxes m hm (Bool.eq_true_of_not_eq_false hin)] at hb
  cases hb

theorem SetApart.endOf (hd : d.NamesUnique) (h : SetApart o d inside) :
    SetApart o (endOf o d) inside := by
  refine ⟨?_, h.configured, ?_⟩
  · intro a b ha hab
    obtain ⟨x, hx, c, hc, rfl⟩ := hab
    rw [find?_endOf hd] at hx
    obtain ⟨m, hm, rfl⟩ := Option.map_eq_some_iff.mp hx
    have hname := Design.name_of_find? hm
    subst hname
    rw [resultOf_blackbox (h.boxes m (Design.mem_of_find? hm) ha)] at hc
    exact h.closed _ _ ha ⟨m, hm, c, hc, rfl⟩
  · intro t ht hin
    rw [modules_endOf hd] at ht
    obtain ⟨m, hm, rfl⟩ := List.mem_map.mp ht
    obtain ⟨hname, hbox⟩ := resultOf_rest (o := o) hd hm
    rw [hname] at hin
    rw [hbox]
    exact h.boxes m hm hin

/-- A second run visits what is not set apart in the same order. -/
theorem order_endOf (hd : d.NamesUnique) (hp : d.PortsNumbered) (h : SetApart o d inside) :
    (moduleOrder d o.selection).filter (fun a => !inside a) =
      (moduleOrder (Buffering.endOf o d) o.selection).filter fun a => !inside a := by
  refine filter_walk h.closed (h.endOf hd).closed ?_ ?_
  · intro name _
    rw [find?_endOf hd]
    cases hf : d.find? name with
    | none => rfl
    | some m =>
      obtain ⟨types, htypes, hnew⟩ := types_resultOf (o := o) hd (Design.mem_of_find? hf)
      have hnil : types.filter (fun a => !inside a) = [] := by
        refine List.filter_eq_nil_iff.mpr ?_
        intro type htype
        obtain ⟨spec, hspec, rfl⟩ := hnew type htype
        simp [h.configured spec hspec]
      simp only [Option.map_some]
      rw [htypes, List.filter_append, hnil, List.append_nil]
  · refine congrArg (List.filter fun v : Visit => !inside v.module) ?_
    rw [modules_endOf hd, List.filter_map, List.map_map]
    have hfilter : d.modules.filter (startsAt o.selection ∘ resultOf o d) =
        d.modules.filter (startsAt o.selection) := by
      refine List.filter_congr ?_
      intro m hm
      exact startsAt_resultOf hd hp hm
    rw [hfilter]
    refine List.map_congr_left ?_
    intro m hm
    rw [Function.comp_apply, (resultOf_rest hd (List.mem_of_mem_filter hm)).1]

theorem mem_order_endOf (hd : d.NamesUnique) (hp : d.PortsNumbered) (h : SetApart o d inside)
    {name : String} (hout : inside name = false) :
    name ∈ moduleOrder (endOf o d) o.selection ↔ name ∈ moduleOrder d o.selection := by
  have hmem := congrArg (name ∈ ·) (order_endOf hd hp h).symm
  simpa [hout] using hmem

theorem filter_visitedBefore {name : String} (hout : inside name = false) (o : Options)
    (d : Design) : (visitedBefore o d name).filter (fun a => !inside a) =
      ((moduleOrder d o.selection).filter fun a => !inside a).takeWhile (· ≠ name) := by
  unfold visitedBefore
  rw [List.takeWhile_filter]
  congr 2
  funext a
  by_cases ha : a = name
  · simp [ha, hout]
  · simp [ha]

theorem visitedBefore_inside (h : SetApart o d inside) (hm : d.find? m.name = some m)
    (hb : m.isBlackbox = false) (ho : m.name ∈ moduleOrder d o.selection) {c : Cell}
    (hc : c ∈ m.cells) (hin : inside c.type = true) (hf : (d.find? c.type).isSome) :
    c.type ∈ visitedBefore o d m.name := by
  obtain ⟨after, he⟩ := order_eq ho
  refine (callee_first he c.type ⟨m, hm, c, hc, rfl⟩ hf).resolve_right ?_
  intro hback
  -- the type would lead to the module, which is not set apart
  have hclosed : ∀ a b, Relation.TransGen d.Instantiates a b → inside a = true →
      inside b = true := by
    intro a b hab ha
    induction hab with
    | single hab => exact h.closed _ _ ha hab
    | tail _ hbc ih => exact h.closed _ _ ih hbc
  have hinside := hclosed _ _ hback hin
  rw [h.outside (Design.mem_of_find? hm) hb] at hinside
  cases hinside

/-- A second run has visited the same instances of a module before it. -/
theorem visitedBefore_iff (hd : d.NamesUnique) (hp : d.PortsNumbered) (h : SetApart o d inside)
    (hm : m ∈ d.modules) (hb : m.isBlackbox = false) (ho : m.name ∈ moduleOrder d o.selection)
    {c : Cell} (hc : c ∈ m.cells) (hf : (d.find? c.type).isSome) :
    c.type ∈ visitedBefore o (endOf o d) m.name ↔ c.type ∈ visitedBefore o d m.name := by
  have hout := h.outside hm hb
  cases hin : inside c.type with
  | true =>
    refine iff_of_true ?_ (visitedBefore_inside h (Design.find?_name hd.names hm) hb ho hc hin hf)
    obtain ⟨hname, hbox⟩ := resultOf_rest (o := o) hd hm
    obtain ⟨types, htypes, -⟩ := types_resultOf (o := o) hd hm
    obtain ⟨c', hc', htype⟩ : ∃ c' ∈ (resultOf o d m).cells, c'.type = c.type := by
      have hmem : c.type ∈ (resultOf o d m).cells.map (·.type) := by
        rw [htypes]
        exact List.mem_append_left _ (List.mem_map_of_mem hc)
      exact List.mem_map.mp hmem
    rw [← hname, ← htype]
    refine visitedBefore_inside (h.endOf hd) ?_ (hbox.trans hb) ?_ hc' (htype ▸ hin) ?_
    · rw [hname]
      exact find?_resultOf hd hm
    · rw [hname]
      exact (mem_order_endOf hd hp h hout).mpr ho
    · rw [htype, find?_endOf hd, Option.isSome_map]
      exact hf
  | false =>
    have hsame : c.type ∈ (visitedBefore o (endOf o d) m.name).filter (fun a => !inside a) ↔
        c.type ∈ (visitedBefore o d m.name).filter fun a => !inside a := by
      rw [filter_visitedBefore hout, filter_visitedBefore hout, order_endOf hd hp h]
    simpa [hin] using hsame

end

end ClockNet.Buffering

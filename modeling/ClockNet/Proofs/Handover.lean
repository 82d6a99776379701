import ClockNet.Buffering.Run
import ClockNet.Proofs.Fitted
import ClockNet.Proofs.Ports

/-! # What the handover leaves in a module

After the walk over the wires the names of replaced ports go to their copies, drivers are moved
onto the wires that feed inserted cells, and loads off the clock path go back to the ports. Wire
by wire and cell by cell: a copy ends as the port that it replaces (`wire_renames_copy`), a
replaced port ends as no port, and the signal of a cell's port changes in the one way that
`handedSignal` says (`complete_cell`). -/

namespace ClockNet

namespace Buffering.Insertion

/-! ## Names and roles of replaced ports -/

section Rename
variable {m : Module}

/-- Handing over one name: the port loses its role and takes the name of its copy, which takes
that of the port. -/
theorem wire_renamePort {q : WireId × WireId} (hne : q.1 ≠ q.2) (h₁ : q.1 < m.wires.length)
    (h₂ : q.2 < m.wires.length) (j : WireId) : (renamePort m q).wire j =
      if j = q.1 then { stripPort (m.wire q.1) with name := (m.wire q.2).name }
      else if j = q.2 then { m.wire q.2 with name := (m.wire q.1).name }
      else m.wire j := by
  unfold renamePort Module.swapNames
  simp only [Module.wire_modifyWire, Module.length_modifyWire]
  by_cases hj₁ : j = q.1
  · subst hj₁
    simp only [h₁, and_true, if_true, Ne.symm hne, if_false]
    rfl
  · by_cases hj₂ : j = q.2
    · subst hj₂
      simp only [h₂, and_true, hne, if_false, if_true, Ne.symm hne]
    · simp only [hj₁, hj₂, Ne.symm (Ne.intro hj₁), Ne.symm (Ne.intro hj₂), false_and, if_false]

@[simp] theorem length_renamePort (q : WireId × WireId) :
    (renamePort m q).wires.length = m.wires.length := by
  unfold renamePort Module.swapNames
  simp only [Module.length_modifyWire]

/-- The pairs of a list of replaced ports are in range, and no wire occurs in two places. -/
structure Exchange (m : Module) (replaced : List (WireId × WireId)) : Prop where
  fst_nodup : (replaced.map Prod.fst).Nodup
  snd_nodup : (replaced.map Prod.snd).Nodup
  apart : ∀ q ∈ replaced, ∀ r ∈ replaced, q.1 ≠ r.2
  fst_lt : ∀ q ∈ replaced, q.1 < m.wires.length
  snd_lt : ∀ q ∈ replaced, q.2 < m.wires.length

theorem Exchange.tail {q : WireId × WireId} {rest : List (WireId × WireId)}
    (h : Exchange m (q :: rest)) : Exchange (renamePort m q) rest := by
  refine ⟨(List.nodup_cons.mp h.fst_nodup).2, (List.nodup_cons.mp h.snd_nodup).2, ?_, ?_, ?_⟩
  · exact fun a ha b hb => h.apart a (List.mem_cons_of_mem _ ha) b (List.mem_cons_of_mem _ hb)
  · intro a ha
    rw [length_renamePort]
    exact h.fst_lt a (List.mem_cons_of_mem _ ha)
  · intro a ha
    rw [length_renamePort]
    exact h.snd_lt a (List.mem_cons_of_mem _ ha)

theorem Exchange.wire_head {q : WireId × WireId} {rest : List (WireId × WireId)}
    (h : Exchange m (q :: rest)) (j : WireId) : (renamePort m q).wire j =
      if j = q.1 then { stripPort (m.wire q.1) with name := (m.wire q.2).name }
      else if j = q.2 then { m.wire q.2 with name := (m.wire q.1).name }
      else m.wire j :=
  wire_renamePort (h.apart q List.mem_cons_self q List.mem_cons_self)
    (h.fst_lt q List.mem_cons_self) (h.snd_lt q List.mem_cons_self) j

theorem Exchange.wire_tail {q r : WireId × WireId} {rest : List (WireId × WireId)}
    (h : Exchange m (r :: rest)) (hq : q ∈ rest) :
    (renamePort m r).wire q.1 = m.wire q.1 ∧ (renamePort m r).wire q.2 = m.wire q.2 := by
  have h₁ : q.1 ≠ r.1 := fun he =>
    (List.nodup_cons.mp h.fst_nodup).1 (he ▸ List.mem_map_of_mem hq)
  have h₂ : q.2 ≠ r.2 := fun he =>
    (List.nodup_cons.mp h.snd_nodup).1 (he ▸ List.mem_map_of_mem hq)
  have h₃ := h.apart q (List.mem_cons_of_mem _ hq) r List.mem_cons_self
  have h₄ := h.apart r List.mem_cons_self q (List.mem_cons_of_mem _ hq)
  rw [h.wire_head, h.wire_head, if_neg h₁, if_neg h₃, if_neg (Ne.symm h₄), if_neg h₂]
  exact ⟨rfl, rfl⟩

@[simp] theorem length_renames (replaced : List (WireId × WireId)) :
    (replaced.foldl renamePort m).wires.length = m.wires.length := by
  induction replaced generalizing m with
  | nil => rfl
  | cons q rest ih => rw [List.foldl_cons, ih, length_renamePort]

theorem wire_renames_other {replaced : List (WireId × WireId)} (h : Exchange m replaced)
    {j : WireId} (h₁ : j ∉ replaced.map Prod.fst) (h₂ : j ∉ replaced.map Prod.snd) :
    (replaced.foldl renamePort m).wire j = m.wire j := by
  induction replaced generalizing m with
  | nil => rfl
  | cons q rest ih =>
    rw [List.map_cons, List.mem_cons, not_or] at h₁ h₂
    rw [List.foldl_cons, ih h.tail h₁.2 h₂.2, h.wire_head, if_neg h₁.1, if_neg h₂.1]

/-- A replaced port ends as no port, under the name of its copy. -/
theorem wire_renames_port {replaced : List (WireId × WireId)} (h : Exchange m replaced)
    {q : WireId × WireId} (hq : q ∈ replaced) : (replaced.foldl renamePort m).wire q.1 =
      { stripPort (m.wire q.1) with name := (m.wire q.2).name } := by
  induction replaced generalizing m with
  | nil => cases hq
  | cons r rest ih =>
    rw [List.foldl_cons]
    rcases List.mem_cons.mp hq with rfl | hq
    · have hout : q.1 ∉ rest.map Prod.snd := by
        intro hm
        obtain ⟨r, hr, he⟩ := List.mem_map.mp hm
        exact h.apart q List.mem_cons_self r (List.mem_cons_of_mem _ hr) he.symm
      rw [wire_renames_other h.tail (List.nodup_cons.mp h.fst_nodup).1 hout, h.wire_head,
        if_pos rfl]
    · rw [ih h.tail hq, (h.wire_tail hq).1, (h.wire_tail hq).2]

/-- A copy ends under the name of the port that it replaces. -/
theorem wire_renames_copy {replaced : List (WireId × WireId)} (h : Exchange m replaced)
    {q : WireId × WireId} (hq : q ∈ replaced) : (replaced.foldl renamePort m).wire q.2 =
      { m.wire q.2 with name := (m.wire q.1).name } := by
  induction replaced generalizing m with
  | nil => cases hq
  | cons r rest ih =>
    rw [List.foldl_cons]
    rcases List.mem_cons.mp hq with rfl | hq
    · have hout : q.2 ∉ rest.map Prod.fst := by
        intro hm
        obtain ⟨r, hr, he⟩ := List.mem_map.mp hm
        exact h.apart r (List.mem_cons_of_mem _ hr) q List.mem_cons_self he
      rw [wire_renames_other h.tail hout (List.nodup_cons.mp h.snd_nodup).1, h.wire_head,
        if_neg (Ne.symm (h.apart q List.mem_cons_self q List.mem_cons_self)), if_pos rfl]
    · rw [ih h.tail hq, (h.wire_tail hq).1, (h.wire_tail hq).2]

theorem nodup_renamePort {q : WireId × WireId} (hne : q.1 ≠ q.2) (h₁ : q.1 < m.wires.length)
    (h₂ : q.2 < m.wires.length) (hn : (m.wires.map (·.name)).Nodup) :
    ((renamePort m q).wires.map (·.name)).Nodup := by
  -- each wire has the name that the wire exchanged with it had
  have hlt : ∀ j < m.wires.length, Equiv.swap q.1 q.2 j < m.wires.length := by
    intro j hj
    rw [Equiv.swap_apply_def]
    split
    · exact h₂
    · split
      · exact h₁
      · exact hj
  have hname : ∀ j, ((renamePort m q).wire j).name = (m.wire (Equiv.swap q.1 q.2 j)).name := by
    intro j
    rw [wire_renamePort hne h₁ h₂, Equiv.swap_apply_def]
    split
    · rfl
    · split <;> rfl
  refine Module.wires_nodup_of_inj ?_
  intro i hi j hj he
  rw [length_renamePort] at hi hj
  rw [hname, hname] at he
  exact (Equiv.swap q.1 q.2).injective (Module.wire_inj_of_name hn (hlt i hi) (hlt j hj) he)

theorem nodup_renames {replaced : List (WireId × WireId)} (h : Exchange m replaced)
    (hn : (m.wires.map (·.name)).Nodup) :
    ((replaced.foldl renamePort m).wires.map (·.name)).Nodup := by
  induction replaced generalizing m with
  | nil => exact hn
  | cons q rest ih =>
    exact ih h.tail (nodup_renamePort (h.apart q List.mem_cons_self q List.mem_cons_self)
      (h.fst_lt q List.mem_cons_self) (h.snd_lt q List.mem_cons_self) hn)

/-- Handing over names touches wires only. -/
theorem renames_rest (m : Module) (replaced : List (WireId × WireId)) :
    (replaced.foldl renamePort m).name = m.name ∧
    (replaced.foldl renamePort m).attributes = m.attributes ∧
    (replaced.foldl renamePort m).cells = m.cells ∧
    (replaced.foldl renamePort m).connections = m.connections ∧
    (replaced.foldl renamePort m).nextNumber = m.nextNumber := by
  induction replaced generalizing m with
  | nil => exact ⟨rfl, rfl, rfl, rfl, rfl⟩
  | cons q rest ih => exact ih (renamePort m q)

end Rename

/-! ## Published outputs -/

/-- An output port is retagged where a cell has been placed on its net. -/
structure Republished (e : Scene) (s : Insertion) (id : WireId) (index : Nat) : Prop where
  place : index < (s.module.wire id).width
  retags : retags e.options s.module (s.module.wire id) = true
  placed : e.aliases.root (.wire id index) ∈ s.placed.map Prod.fst

/-- The bits of a wire that are published because a cell has been placed on their nets. -/
def outputActions (e : Scene) (s : Insertion) (id : WireId) : List Action :=
  if retags e.options s.module (s.module.wire id) then
    ((List.range (s.module.wire id).width).filter fun i =>
      (s.placedOn? (e.aliases.root (.wire id i))).isSome).map (.publishBuffered id)
  else []

theorem mem_outputActions {e : Scene} {s : Insertion} {id : WireId} {a : Action} :
    a ∈ outputActions e s id ↔ ∃ i, a = .publishBuffered id i ∧ Republished e s id i := by
  unfold outputActions
  rw [List.mem_ite_nil_right]
  simp only [List.mem_map, List.mem_filter, List.mem_range, Option.isSome_iff_exists]
  constructor
  · intro h
    obtain ⟨hr, i, ⟨hi, hp⟩, rfl⟩ := h
    exact ⟨i, rfl, hi, hr, mem_placed.mpr hp⟩
  · intro h
    obtain ⟨i, rfl, hi, hr, hp⟩ := h
    exact ⟨hr, i, ⟨hi, mem_placed.mp hp⟩, rfl⟩

theorem outputActions_publish (e : Scene) (s : Insertion) (id : WireId) :
    ∀ a ∈ outputActions e s id, ∃ id i, a = Action.publishBuffered id i := by
  intro a ha
  obtain ⟨i, rfl, -⟩ := mem_outputActions.mp ha
  exact ⟨id, i, rfl⟩

theorem foldl_publish {e : Scene} {m : Module} {as : List Action}
    (h : ∀ a ∈ as, ∃ id i, a = .publishBuffered id i) (s : Insertion) :
    ∃ tags, as.foldl (Action.apply e m) s = { s with tags } := by
  induction as generalizing s with
  | nil => exact ⟨s.tags, rfl⟩
  | cons a rest ih =>
    obtain ⟨id, i, rfl⟩ := h a List.mem_cons_self
    obtain ⟨tags, ht⟩ := ih (fun b hb => h b (List.mem_cons_of_mem _ hb))
      (s.publishBuffered (m.wire id) i)
    exact ⟨tags, ht⟩

theorem publishOutput_eq (e : Scene) {s t : Insertion} (hm : t.module = s.module)
    (hp : t.placed = s.placed) (id : WireId) :
    t.publishOutput e id = (outputActions e s id).foldl (Action.apply e s.module) t := by
  have hplaced : ∀ net, t.placedOn? net = s.placedOn? net := by
    intro net
    unfold placedOn?
    rw [hp]
  have hcond : ∀ (l : List Nat) (u : Insertion), l.foldl (fun u i =>
      if (s.placedOn? (e.aliases.root (.wire id i))).isSome then
        u.publishBuffered (s.module.wire id) i else u) u =
      ((l.filter fun i => (s.placedOn? (e.aliases.root (.wire id i))).isSome).map
        (Action.publishBuffered id)).foldl (Action.apply e s.module) u := by
    intro l
    induction l with
    | nil => intro u; rfl
    | cons i rest ih =>
      intro u
      rw [List.foldl_cons, ih, List.filter_cons]
      split <;> rfl
  unfold publishOutput outputActions
  simp only [hm, hplaced, Wire.foldPlaces_eq, hcond]
  split <;> rfl

/-- Publishing the outputs carries out those actions. -/
theorem publishOutputs_eq (e : Scene) (s : Insertion) : s.publishOutputs e =
    (s.module.wireIds.flatMap (outputActions e s)).foldl (Action.apply e s.module) s := by
  have go : ∀ (ids : List WireId) (t : Insertion), t.module = s.module → t.placed = s.placed →
      ids.foldl (publishOutput e) t =
        (ids.flatMap (outputActions e s)).foldl (Action.apply e s.module) t := by
    intro ids
    induction ids with
    | nil => intro t _ _; rfl
    | cons id rest ih =>
      intro t hm hp
      rw [List.foldl_cons, List.flatMap_cons, List.foldl_append, publishOutput_eq e hm hp]
      obtain ⟨tags, ht⟩ := foldl_publish (e := e) (m := s.module)
        (outputActions_publish e s id) t
      rw [ht]
      exact ih _ hm hp
  exact go s.module.wireIds s rfl rfl

theorem publishOutputs_rest (e : Scene) (s : Insertion) :
    ∃ tags, s.publishOutputs e = { s with tags } := by
  rw [publishOutputs_eq]
  refine foldl_publish (fun a ha => ?_) s
  obtain ⟨id, -, ha⟩ := List.mem_flatMap.mp ha
  exact outputActions_publish e s id a ha

theorem publishOutputs_tags (e : Scene) (s : Insertion) :
    (s.publishOutputs e).tags.inverters = s.tags.inverters ∧
    (s.publishOutputs e).tags.clocked = s.tags.clocked := by
  rw [publishOutputs_eq]
  exact Action.foldl_tags _ (Module.Grown.refl _)

theorem mem_sinks_publishOutputs (e : Scene) (s : Insertion) (p : PortBit) :
    p ∈ (s.publishOutputs e).tags.sinks ↔ p ∈ s.tags.sinks := by
  rw [publishOutputs_eq, Action.mem_sinks_foldl _ (Module.Grown.refl _)]
  refine or_iff_left ?_
  intro h
  obtain ⟨id, i, ha, -⟩ := h
  obtain ⟨id', -, ha⟩ := List.mem_flatMap.mp ha
  obtain ⟨j, he, -⟩ := mem_outputActions.mp ha
  cases he

theorem mem_buffered_publishOutputs (e : Scene) (s : Insertion) (p : PortBit) :
    p ∈ (s.publishOutputs e).tags.buffered ↔ p ∈ s.tags.buffered ∨
      ∃ id i, Republished e s id i ∧ p = ⟨s.module.name, (s.module.wire id).name, i⟩ := by
  rw [publishOutputs_eq, Action.mem_buffered_foldl _ (Module.Grown.refl _)]
  refine or_congr_right ⟨?_, ?_⟩
  · intro h
    obtain ⟨id, i, ha, rfl⟩ := h
    obtain ⟨id', -, ha⟩ := List.mem_flatMap.mp ha
    obtain ⟨j, he, hr⟩ := mem_outputActions.mp ha
    cases he
    exact ⟨id, i, hr, rfl⟩
  · intro h
    obtain ⟨id, i, hr, rfl⟩ := h
    refine ⟨id, i, List.mem_flatMap.mpr ⟨id, ?_, mem_outputActions.mpr ⟨i, rfl, hr⟩⟩, rfl⟩
    exact List.mem_range.mpr (Module.lt_of_place hr.place)

/-! ## Signals of cells -/

/-- What becomes of the signal of a port: drivers move, and loads off the clock path go back to
the ports of the renamed module `r`. -/
def handedSignal (e : Scene) (s : Insertion) (r : Module) (id : CellId) (c : Cell)
    (port : String) (signal : Signal) : Signal :=
  if e.signatures.isOutput c port then signal.map (movedBit e s id)
  else if !s.tags.clocked.isEmpty && restores e.options s.tags c then
    restoredSignal r s.replaced signal
  else signal

def handedCell (e : Scene) (s : Insertion) (r : Module) (id : CellId) (c : Cell) : Cell :=
  { c with ports := c.ports.mapValues (handedSignal e s r id c) }

theorem mapValues_mapValues {β γ δ : Type} (t : OrderedTable β) (f : String → β → γ)
    (g : String → γ → δ) :
    (t.mapValues f).mapValues g = t.mapValues fun name value => g name (f name value) := by
  refine OrderedTable.ext ?_
  unfold OrderedTable.mapValues
  simp only [List.map_map]
  rfl

theorem isOutput_congr (signatures : Signatures) {c c' : Cell} (ht : c'.type = c.type)
    (hd : c'.directions = c.directions) (port : String) :
    signatures.isOutput c' port = signatures.isOutput c port := by
  unfold Signatures.isOutput Signatures.direction
  rw [ht, hd]

def renamed (s : Insertion) : Module := (s.replaced.foldl renamePort s.module).renumberPorts

theorem renames_cells (m : Module) (cells : List Cell) (replaced : List (WireId × WireId)) :
    replaced.foldl renamePort { m with cells } = { replaced.foldl renamePort m with cells } := by
  induction replaced generalizing m with
  | nil => rfl
  | cons q rest ih => exact ih (renamePort m q)

theorem renamePorts_moveDrivers (e : Scene) (s : Insertion) :
    ((s.moveDrivers e).renamePorts).module =
      { s.renamed with cells := s.module.cells.mapIdx (moveOutputs e s) } := by
  unfold renamePorts moveDrivers renamed
  dsimp only
  rw [renames_cells]
  rfl

/-- A cell that is moved and, where the loads are restored, restored too. -/
theorem restoreCell_moveOutputs (e : Scene) (s t : Insertion) (id : CellId) (c : Cell)
    (ht : t.tags = s.tags) (hr : t.replaced = s.replaced)
    (hc : s.tags.clocked.isEmpty = false) :
    restoreCell e t (moveOutputs e s id c) = handedCell e s t.module id c := by
  unfold restoreCell moveOutputs handedCell
  rw [mapValues_mapValues]
  congr 2
  funext port signal
  unfold restoredPort handedSignal
  have ho : e.signatures.isOutput (moveOutputs e s id c) port = e.signatures.isOutput c port :=
    isOutput_congr e.signatures rfl rfl port
  unfold moveOutputs at ho
  rw [ho, ht, hr, hc]
  cases e.signatures.isOutput c port with
  | true => simp
  | false => simp [restores]

/-- The module in which a state ends when outputs have been published. -/
theorem handover_module (e : Scene) (s : Insertion) :
    (((s.moveDrivers e).renamePorts).restoreLoads e).module = { s.renamed with
      cells := s.module.cells.mapIdx (handedCell e s s.renamed) } := by
  have hm := renamePorts_moveDrivers e s
  unfold restoreLoads
  split
  · rename_i hc
    have hc' : s.tags.clocked.isEmpty = true := hc
    have hf : moveOutputs e s = handedCell e s s.renamed := by
      funext id c
      unfold moveOutputs handedCell
      congr 2
      funext port signal
      unfold handedSignal
      rw [hc']
      rfl
    rw [hm, hf]
  · rename_i hc
    have hc' : s.tags.clocked.isEmpty = false := Bool.eq_false_iff.mpr hc
    have hcells : ((s.moveDrivers e).renamePorts).module.cells.map
        (restoreCell e ((s.moveDrivers e).renamePorts)) =
        s.module.cells.mapIdx (handedCell e s s.renamed) := by
      rw [hm]
      refine List.ext_getElem? fun k => ?_
      rw [List.getElem?_map, List.getElem?_mapIdx, List.getElem?_mapIdx, Option.map_map]
      congr 1
      funext c
      have hr := restoreCell_moveOutputs e s ((s.moveDrivers e).renamePorts) k c rfl rfl hc'
      rw [hm] at hr
      exact hr
    dsimp only
    rw [hcells, hm]

/-! ## Restored signals -/

/-- What restoring does to a bit: nothing, or it turns from a bit of a replaced port into the
same bit of the copy. -/
def RestoredBit (m : Module) (replaced : List (WireId × WireId)) (b b' : Bit) : Prop :=
  b' = b ∨ ∃ q ∈ replaced, ∃ i < (m.wire q.1).width, b = .wire q.1 i ∧ b' = .wire q.2 i

theorem forall₂_ofWire {m : Module} {replaced : List (WireId × WireId)} {q : WireId × WireId}
    (hq : q ∈ replaced) (hw : (m.wire q.2).width = (m.wire q.1).width) :
    List.Forall₂ (RestoredBit m replaced) (m.wireSignal q.1) (m.wireSignal q.2) := by
  unfold Module.wireSignal Signal.ofWire
  rw [hw, List.forall₂_map_left_iff, List.forall₂_map_right_iff, List.forall₂_same]
  intro i hi
  exact .inr ⟨q, hq, i, List.mem_range.mp hi, rfl, rfl⟩

/-- Restoring a signal goes bit by bit. -/
theorem forall₂_restoredSignal {m : Module} {replaced : List (WireId × WireId)}
    (hw : ∀ q ∈ replaced, (m.wire q.2).width = (m.wire q.1).width) (s : Signal) :
    List.Forall₂ (RestoredBit m replaced) s (restoredSignal m replaced s) := by
  have hchunk : ∀ chunk : Signal,
      List.Forall₂ (RestoredBit m replaced) chunk (restoredChunk m replaced chunk) := by
    intro chunk
    unfold restoredChunk
    split
    · rename_i q hq
      have he : m.wireSignal q.1 = chunk := by simpa using List.find?_some hq
      have hmem := List.mem_of_find?_eq_some hq
      rw [← he]
      exact forall₂_ofWire hmem (hw q hmem)
    · exact List.forall₂_same.mpr fun b _ => .inl rfl
  have hall : ∀ chunks : List Signal, List.Forall₂ (RestoredBit m replaced) chunks.flatten
      (chunks.flatMap (restoredChunk m replaced)) := by
    intro chunks
    induction chunks with
    | nil => exact .nil
    | cons chunk rest ih =>
      rw [List.flatten_cons, List.flatMap_cons]
      exact List.rel_append (hchunk chunk) ih
  have h := hall s.chunks
  rwa [Signal.flatten_chunks] at h

theorem restoredSignal_nil (m : Module) (s : Signal) : restoredSignal m [] s = s := by
  have hid : restoredChunk m [] = id := funext fun _ => rfl
  unfold restoredSignal
  rw [hid, List.flatMap_id, Signal.flatten_chunks]

/-! ## The state before the handover -/

/-- The state after the walk over the wires, with the outputs published. -/
def inserted (e : Scene) (s : Insertion) : Insertion := (s.visitWires e).publishOutputs e

theorem complete_eq (e : Scene) (s : Insertion) :
    s.complete e = (((s.inserted e).moveDrivers e).renamePorts).restoreLoads e := rfl

section Inserted
variable {e : Scene} {s : Insertion}

theorem fitted_inserted (hs : s.Fresh) : Fitted e s.module (s.inserted e) := by
  obtain ⟨tags, ht⟩ := publishOutputs_rest e (s.visitWires e)
  have h := fitted_visitWires (e := e) hs
  unfold inserted
  rw [ht]
  exact h.congr rfl rfl rfl

theorem mem_placed_inserted (hs : s.Fresh) (net : Bit) :
    net ∈ (s.inserted e).placed.map Prod.fst ↔ ∃ id i, .drive id i ∈ actions e s.module ∧
      parts e s.module (s.module.wire id) (.wire id i) ≠ [] ∧
      net = e.aliases.root (.wire id i) := by
  obtain ⟨tags, ht⟩ := publishOutputs_rest e (s.visitWires e)
  unfold inserted
  rw [ht, visitWires_eq]
  dsimp only
  rw [Action.mem_placed_foldl _ (Module.Grown.refl _), hs.placed]
  simp

theorem replaced_inserted (hs : s.Fresh) :
    (s.inserted e).replaced.map Prod.fst = (actions e s.module).filterMap Action.replaces? := by
  obtain ⟨tags, ht⟩ := publishOutputs_rest e (s.visitWires e)
  unfold inserted
  rw [ht, visitWires_eq]
  dsimp only
  rw [Action.replaced_foldl _ (Module.Grown.refl _), hs.replaced]
  rfl

theorem mem_replaced_inserted (hs : s.Fresh) (id : WireId) :
    id ∈ (s.inserted e).replaced.map Prod.fst ↔ .replace id ∈ actions e s.module := by
  rw [replaced_inserted hs, List.mem_filterMap]
  constructor
  · intro h
    obtain ⟨a, ha, he⟩ := h
    cases a with
    | replace id' => cases he; exact ha
    | drive | publishSink | publishBuffered => cases he
  · intro ha
    exact ⟨_, ha, rfl⟩

theorem tags_inserted : (s.inserted e).tags.inverters = s.tags.inverters ∧
    (s.inserted e).tags.clocked = s.tags.clocked := by
  obtain ⟨hi, hc⟩ := publishOutputs_tags e (s.visitWires e)
  obtain ⟨hi', hc'⟩ := Action.foldl_tags (e := e) (actions e s.module) (Module.Grown.refl s.module)
  rw [← visitWires_eq] at hi' hc'
  exact ⟨hi.trans hi', hc.trans hc'⟩

theorem mem_sinks_inserted (p : PortBit) : p ∈ (s.inserted e).tags.sinks ↔
    p ∈ s.tags.sinks ∨ ∃ id i, .publishSink id i ∈ actions e s.module ∧
      p = ⟨s.module.name, (s.module.wire id).name, i⟩ := by
  unfold inserted
  rw [mem_sinks_publishOutputs, visitWires_eq,
    Action.mem_sinks_foldl _ (Module.Grown.refl s.module)]

/-- A bit of an output port counts as buffered if it is so published, or if it is retagged and
a cell has been placed on its net. -/
def Retagged (e : Scene) (m : Module) (placed : List (Bit × Placement)) (id : WireId)
    (index : Nat) : Prop :=
  index < (m.wire id).width ∧ retags e.options m (m.wire id) = true ∧
    e.aliases.root (.wire id index) ∈ placed.map Prod.fst

theorem retags_congr {m m' : Module} (h : m'.name = m.name) (o : Options) (w : Wire) :
    retags o m' w = retags o m w := by
  unfold retags Selection.selectsWire Selection.moduleMatches
  rw [h]

theorem role_of_retags {o : Options} {m : Module} {w : Wire} (h : retags o m w = true) :
    w.isOutput = true ∧ w.isInput = false := by
  unfold retags at h
  simp only [Bool.and_eq_true, Bool.not_eq_true'] at h
  exact ⟨h.1.2, h.1.1⟩

/-- Only bits of outputs, and of no inputs, come to count as buffered. -/
theorem role_of_buffered {m : Module} {placed : List (Bit × Placement)} {id : WireId} {i : Nat}
    (h : .publishBuffered id i ∈ actions e m ∨ Retagged e m placed id i) :
    i < (m.wire id).width ∧ (m.wire id).isOutput = true ∧ (m.wire id).isInput = false := by
  rcases h with hpub | ⟨hplace, hretags, -⟩
  · obtain ⟨hplace, hout, hin, -⟩ := mem_actions_publishBuffered.mp hpub
    exact ⟨hplace, hout, hin⟩
  · exact ⟨hplace, role_of_retags hretags⟩

theorem Fitted.isOutput_new {m : Module} {u : Insertion} (h : Fitted e m u) {id : WireId}
    (hid : m.wires.length ≤ id) : (u.module.wire id).isOutput = false := by
  by_cases hlt : id < u.module.wires.length
  · rcases h.wires id hid hlt with hmem | ⟨name, hw⟩
    · obtain ⟨q, hq, rfl⟩ := List.mem_map.mp hmem
      obtain ⟨ha, -, -, name, hw⟩ := h.replaced q hq
      obtain ⟨hin, i, hd⟩ := mem_actions_replace.mp ha
      rw [hw]
      exact (mem_actions_drive.mp hd).1.not_output hin
    · rw [hw]
  · rw [Module.wire_eq_default (Nat.le_of_not_lt hlt)]
    rfl

theorem republished_iff (hs : s.Fresh) (id : WireId) (i : Nat) :
    Republished e (s.visitWires e) id i ↔ Retagged e s.module (s.inserted e).placed id i := by
  have hf := fitted_visitWires (e := e) hs
  have hplaced : (s.inserted e).placed = (s.visitWires e).placed := by
    obtain ⟨tags, ht⟩ := publishOutputs_rest e (s.visitWires e)
    unfold inserted
    rw [ht]
  unfold Retagged
  rw [hplaced]
  by_cases hid : id < s.module.wires.length
  · have hw := hf.grown.wire hid
    constructor
    · intro h
      obtain ⟨h₁, h₂, h₃⟩ := h
      rw [hw] at h₁ h₂
      exact ⟨h₁, retags_congr hf.grown.name _ _ ▸ h₂, h₃⟩
    · intro h
      obtain ⟨h₁, h₂, h₃⟩ := h
      refine ⟨hw ▸ h₁, ?_, h₃⟩
      rw [hw, retags_congr hf.grown.name]
      exact h₂
  · have hge := Nat.le_of_not_lt hid
    constructor
    · intro h
      obtain ⟨-, h₂, -⟩ := h
      have hout := (role_of_retags h₂).1
      rw [Fitted.isOutput_new hf hge] at hout
      cases hout
    · intro h
      obtain ⟨h₁, -, -⟩ := h
      exact absurd (Module.lt_of_place h₁) hid

theorem mem_buffered_inserted (hs : s.Fresh) (p : PortBit) : p ∈ (s.inserted e).tags.buffered ↔
      p ∈ s.tags.buffered ∨ ∃ id i, (.publishBuffered id i ∈ actions e s.module ∨
        Retagged e s.module (s.inserted e).placed id i) ∧
        p = ⟨s.module.name, (s.module.wire id).name, i⟩ := by
  have hf := fitted_visitWires (e := e) hs
  have hv : p ∈ (s.visitWires e).tags.buffered ↔ p ∈ s.tags.buffered ∨
      ∃ id i, .publishBuffered id i ∈ actions e s.module ∧
        p = ⟨s.module.name, (s.module.wire id).name, i⟩ := by
    rw [visitWires_eq]
    exact Action.mem_buffered_foldl _ (Module.Grown.refl s.module) p
  have hu : p ∈ (s.inserted e).tags.buffered ↔ p ∈ (s.visitWires e).tags.buffered ∨
      ∃ id i, Republished e (s.visitWires e) id i ∧
        p = ⟨(s.visitWires e).module.name, ((s.visitWires e).module.wire id).name, i⟩ :=
    mem_buffered_publishOutputs e (s.visitWires e) p
  rw [hu, hv, or_assoc]
  refine or_congr_right ⟨?_, ?_⟩
  · intro h
    rcases h with ⟨id, i, ha, rfl⟩ | ⟨id, i, hrep, rfl⟩
    · exact ⟨id, i, .inl ha, rfl⟩
    · have hret := (republished_iff hs id i).mp hrep
      rw [hf.grown.name, hf.grown.wire (Module.lt_of_place hret.1)]
      exact ⟨id, i, .inr hret, rfl⟩
  · intro h
    rcases h with ⟨id, i, ha | hret, rfl⟩
    · exact .inl ⟨id, i, ha, rfl⟩
    · refine .inr ⟨id, i, (republished_iff hs id i).mpr hret, ?_⟩
      rw [hf.grown.name, hf.grown.wire (Module.lt_of_place hret.1)]

theorem complete_tags : (s.complete e).tags = (s.inserted e).tags := by
  rw [complete_eq]
  unfold restoreLoads
  split <;> rfl

theorem complete_module : (s.complete e).module = { (s.inserted e).renamed with
    cells := (s.inserted e).module.cells.mapIdx
      (handedCell e (s.inserted e) (s.inserted e).renamed) } :=
  handover_module e (s.inserted e)

end Inserted

end Buffering.Insertion

end ClockNet

import ClockNet.Proofs.Actions

/-! # What insertion leaves in a module

Every inserted cell stands on a net or in front of another inserted cell, and on a wire of its
own; what has been placed on a net is such a chain; every other new wire is the copy of a
replaced input port, with one connection for each of its bits. `Fitted` says so of a state, each
action keeps it (`Fitted.apply`), and so the walk over the wires ends in such a state
(`fitted_visitWires`). -/

namespace ClockNet.Buffering

/-! ## New cells and new wires -/

/-- A new wire that is no copy of a port: it feeds an inserted cell. -/
structure IsFeed (m : Module) (s : Insertion) (f : WireId) : Prop where
  new : m.wires.length ≤ f
  lt : f < s.module.wires.length
  not_copy : f ∉ s.replaced.map Prod.snd

/-- A new cell with its output on a bit and its input on a new wire. -/
structure CellAt (m : Module) (s : Insertion) (k : CellId) (spec : BufferSpec) (output : Bit)
    (feed : WireId) : Prop where
  new : m.cells.length ≤ k
  lt : k < s.module.cells.length
  feeds : IsFeed m s feed
  shape : ∃ name, s.module.cell k = bufferCell name spec.type spec output feed

/-- A later state: the module has grown, and ports replaced since have newer copies. -/
structure Later (s t : Insertion) : Prop where
  grown : s.module.Grown t.module
  replaced : ∀ q ∈ t.replaced, q ∈ s.replaced ∨ s.module.wires.length ≤ q.2

section Later
variable {m : Module} {s t : Insertion}

theorem IsFeed.later {f : WireId} (h : IsFeed m s f) (hl : Later s t) : IsFeed m t f := by
  refine ⟨h.new, Nat.lt_of_lt_of_le h.lt hl.grown.wires_length, fun hf => ?_⟩
  obtain ⟨q, hq, rfl⟩ := List.mem_map.mp hf
  rcases hl.replaced q hq with hq | hge
  · exact h.not_copy (List.mem_map_of_mem hq)
  · exact absurd h.lt (Nat.not_lt.mpr hge)

theorem CellAt.later {k : CellId} {spec : BufferSpec} {output : Bit} {feed : WireId}
    (h : CellAt m s k spec output feed) (hl : Later s t) : CellAt m t k spec output feed := by
  obtain ⟨name, hn⟩ := h.shape
  exact ⟨h.new, Nat.lt_of_lt_of_le h.lt hl.grown.cells_length, h.feeds.later hl, name,
    (hl.grown.cell h.lt).trans hn⟩

end Later

/-! ## The invariant -/

/-- A new cell stands on the net that an action drives, as the first of its chain, or in front
of the wire that feeds another new cell. -/
def CellFits (e : Scene) (m : Module) (s : Insertion) (k : CellId) : Prop :=
  ∃ id i spec output feed, Action.drive id i ∈ actions e m ∧
    spec ∈ parts e m (m.wire id) (.wire id i) ∧ CellAt m s k spec output feed ∧
    ((output = e.aliases.root (.wire id i) ∧
        (parts e m (m.wire id) (.wire id i)).head? = some spec) ∨
      ∃ f, IsFeed m s f ∧ output = .wire f 0)

/-- What has been placed on a net that an action drives: the first cell of its chain, and the
wire in front of the last one. -/
def PlacementFits (e : Scene) (m : Module) (s : Insertion) (net : Bit) (p : Placement) : Prop :=
  ∃ id i spec f, Action.drive id i ∈ actions e m ∧ net = e.aliases.root (.wire id i) ∧
    (parts e m (m.wire id) (.wire id i)).head? = some spec ∧ CellAt m s p.cell spec net f ∧
    (f = p.feed ∨ ∃ k, ∃ spec' ∈ parts e m (m.wire id) (.wire id i),
      CellAt m s k spec' (.wire f 0) p.feed)

/-- The connections of the copies of replaced ports, one for each bit. -/
def copyConnections (m : Module) (replaced : List (WireId × WireId))
    (target : WireId → Nat → Bit) : List (Signal × Signal) :=
  replaced.flatMap fun q =>
    (List.range (m.wire q.1).width).map fun i => ([target q.2 i], [.wire q.2 i])

/-- Nothing has been inserted yet. -/
structure Insertion.Fresh (s : Insertion) : Prop where
  names : s.module.NamesUnique
  placed : s.placed = []
  replaced : s.replaced = []

/-- What holds of every state that insertion into a module reaches. -/
structure Fitted (e : Scene) (m : Module) (s : Insertion) : Prop where
  grown : m.Grown s.module
  names : s.module.NamesUnique
  cells : ∀ k, m.cells.length ≤ k → k < s.module.cells.length → CellFits e m s k
  placed : ∀ net p, (net, p) ∈ s.placed → PlacementFits e m s net p
  replaced : ∀ q ∈ s.replaced, Action.replace q.1 ∈ actions e m ∧ m.wires.length ≤ q.2 ∧
    q.2 < s.module.wires.length ∧ ∃ name, s.module.wire q.2 = { m.wire q.1 with name }
  nodup : (s.replaced.map Prod.snd).Nodup
  wires : ∀ id, m.wires.length ≤ id → id < s.module.wires.length →
    id ∈ s.replaced.map Prod.snd ∨ ∃ name, s.module.wire id = { name, width := 1 }
  copies : ∃ target, s.module.connections =
      m.connections ++ copyConnections m s.replaced target ∧
    ∀ q ∈ s.replaced, ∀ i, target q.2 i = .wire q.1 i ∨
      ∃ p, (e.aliases.root (.wire q.1 i), p) ∈ s.placed ∧ target q.2 i = .wire p.feed 0

section Steps
variable {e : Scene} {m : Module} {s t : Insertion}

theorem CellFits.later {k : CellId} (h : CellFits e m s k) (hl : Later s t) :
    CellFits e m t k := by
  obtain ⟨id, i, spec, output, feed, hd, hs, hc, ho⟩ := h
  refine ⟨id, i, spec, output, feed, hd, hs, hc.later hl, ho.imp_right ?_⟩
  intro hex
  obtain ⟨f, hf, he⟩ := hex
  exact ⟨f, hf.later hl, he⟩

theorem PlacementFits.later {net : Bit} {p : Placement} (h : PlacementFits e m s net p)
    (hl : Later s t) : PlacementFits e m t net p := by
  obtain ⟨id, i, spec, f, hd, hn, hs, hc, ho⟩ := h
  refine ⟨id, i, spec, f, hd, hn, hs, hc.later hl, ho.imp_right ?_⟩
  intro hex
  obtain ⟨k, spec', hmem, hk⟩ := hex
  exact ⟨k, spec', hmem, hk.later hl⟩

theorem PlacementFits.isFeed {net : Bit} {p : Placement} (h : PlacementFits e m s net p) :
    IsFeed m s p.feed := by
  obtain ⟨id, i, spec, f, -, -, -, hc, rfl | ⟨k, spec', -, hk⟩⟩ := h
  · exact hc.feeds
  · exact hk.feeds

theorem fitted_start (hs : s.Fresh) : Fitted e s.module s := by
  refine ⟨.refl _, hs.names, ?_, ?_, ?_, ?_, ?_, fun _ _ => default, ?_⟩
  · intro k hk hlt
    omega
  · rw [hs.placed]; intro net p h; cases h
  · rw [hs.replaced]; intro q hq; cases hq
  · rw [hs.replaced]; exact List.nodup_nil
  · intro id hid hlt
    omega
  · rw [hs.replaced]
    exact ⟨(List.append_nil _).symm, fun q hq => by cases hq⟩

theorem Fitted.congr (h : Fitted e m s) (hm : t.module = s.module) (hp : t.placed = s.placed)
    (hr : t.replaced = s.replaced) : Fitted e m t := by
  have hl : Later s t := ⟨hm ▸ .refl _, fun q hq => .inl (hr ▸ hq)⟩
  obtain ⟨target, hc, ht⟩ := h.copies
  refine ⟨hm ▸ h.grown, hm ▸ h.names, fun k hk hlt => (h.cells k hk (hm ▸ hlt)).later hl,
    fun net p hmem => (h.placed net p (hp ▸ hmem)).later hl, ?_, hr ▸ h.nodup, ?_, target, ?_, ?_⟩
  · rw [hm, hr]; exact h.replaced
  · rw [hm, hr]; exact h.wires
  · rw [hm, hr]; exact hc
  · rw [hr, hp]; exact ht

theorem Fitted.place (h : Fitted e m s) {net : Bit} {p : Placement}
    (hf : PlacementFits e m s net p) (hm : t.module = s.module) (hr : t.replaced = s.replaced)
    (hp : t.placed = (net, p) :: s.placed) : Fitted e m t := by
  have hl : Later s t := ⟨hm ▸ .refl _, fun q hq => .inl (hr ▸ hq)⟩
  obtain ⟨target, hc, ht⟩ := h.copies
  refine ⟨hm ▸ h.grown, hm ▸ h.names, fun k hk hlt => (h.cells k hk (hm ▸ hlt)).later hl,
    ?_, ?_, hr ▸ h.nodup, ?_, target, ?_, ?_⟩
  · intro net' p' hmem
    rw [hp] at hmem
    rcases List.mem_cons.mp hmem with he | hmem
    · cases he
      exact hf.later hl
    · exact (h.placed net' p' hmem).later hl
  · rw [hm, hr]; exact h.replaced
  · rw [hm, hr]; exact h.wires
  · rw [hm, hr]; exact hc
  · rw [hr, hp]
    intro q hq i
    refine (ht q hq i).imp_right ?_
    intro hex
    obtain ⟨p', hp', he⟩ := hex
    exact ⟨p', List.mem_cons_of_mem _ hp', he⟩

/-! ## Adding cells -/

theorem wire_append_new {m' : Module} {w : Wire} {wires : List Wire} (h : m'.wires = wires ++ [w]) :
    m'.wire wires.length = w := by
  unfold Module.wire
  rw [h, List.getElem?_append_right (Nat.le_refl _), Nat.sub_self]
  rfl

theorem cell_append_new {m' : Module} {c : Cell} {cells : List Cell} (h : m'.cells = cells ++ [c]) :
    m'.cell cells.length = c := by
  unfold Module.cell
  rw [h, List.getElem?_append_right (Nat.le_refl _), Nat.sub_self]
  rfl

theorem later_module {m' : Module} (h : s.module.Grown m') : Later s { s with module := m' } :=
  ⟨h, fun _ hq => .inl hq⟩

theorem Fitted.isFeed_new (h : Fitted e m s) {m' : Module}
    (hw : s.module.wires.length < m'.wires.length) :
    IsFeed m { s with module := m' } s.module.wires.length := by
  refine ⟨h.grown.wires_length, hw, fun hf => ?_⟩
  obtain ⟨q, hq, he⟩ := List.mem_map.mp hf
  exact absurd (h.replaced q hq).2.2.1 (by rw [he]; exact Nat.lt_irrefl _)

theorem Fitted.cellAt_addBuffer (h : Fitted e m s) (spec : BufferSpec) (output : Bit) :
    CellAt m { s with module := (addBuffer s.module spec.type spec output).2 }
      s.module.cells.length spec output s.module.wires.length := by
  obtain ⟨name, wireName, n, -, -, he⟩ := addBuffer_module s.module spec.type spec output
  refine ⟨h.grown.cells_length, ?_, h.isFeed_new ?_, name, ?_⟩
  · dsimp only
    rw [addBuffer_cells_length]
    exact Nat.lt_succ_self _
  · rw [addBuffer_wires_length]
    exact Nat.lt_succ_self _
  · dsimp only
    rw [he]
    exact cell_append_new rfl

/-- Adding a cell on a net that an action drives, or in front of another new cell. -/
theorem Fitted.addBuffer (h : Fitted e m s) {id : WireId} {i : Nat} {spec : BufferSpec}
    {output : Bit} (hd : Action.drive id i ∈ actions e m)
    (hs : spec ∈ parts e m (m.wire id) (.wire id i))
    (ho : (output = e.aliases.root (.wire id i) ∧
        (parts e m (m.wire id) (.wire id i)).head? = some spec) ∨
      ∃ f, IsFeed m s f ∧ output = .wire f 0) :
    Fitted e m { s with module := (addBuffer s.module spec.type spec output).2 } := by
  have hg := grown_addBuffer s.module spec.type spec output
  have hl := later_module hg
  have hc := h.cellAt_addBuffer spec output
  obtain ⟨name, wireName, n, hname, hwire, he⟩ :=
    addBuffer_module s.module spec.type spec output
  obtain ⟨target, hconn, ht⟩ := h.copies
  refine ⟨h.grown.trans hg, ?_, ?_, fun net p hp => (h.placed net p hp).later hl, ?_, h.nodup, ?_,
    target, ?_, ht⟩
  · dsimp only
    rw [he]
    exact ⟨h.names.append_wire hwire, h.names.append_cell hname⟩
  · intro k hk hlt
    by_cases hold : k < s.module.cells.length
    · exact (h.cells k hk hold).later hl
    · have hlast : k = s.module.cells.length := by
        have hlt' : k < (Buffering.addBuffer s.module spec.type spec output).2.cells.length := hlt
        rw [addBuffer_cells_length] at hlt'
        omega
      subst hlast
      refine ⟨id, i, spec, output, _, hd, hs, hc, ho.imp_right ?_⟩
      intro hex
      obtain ⟨f, hf, hof⟩ := hex
      exact ⟨f, hf.later hl, hof⟩
  · intro q hq
    obtain ⟨ha, hge, hlt, name', hw⟩ := h.replaced q hq
    exact ⟨ha, hge, Nat.lt_of_lt_of_le hlt hg.wires_length, name', (hg.wire hlt).trans hw⟩
  · intro id' hge hlt
    by_cases hold : id' < s.module.wires.length
    · rw [show (Buffering.addBuffer s.module spec.type spec output).2.wire id' = _
        from hg.wire hold]
      exact h.wires id' hge hold
    · have hlast : id' = s.module.wires.length := by
        have hlt' : id' < (Buffering.addBuffer s.module spec.type spec output).2.wires.length :=
          hlt
        rw [addBuffer_wires_length] at hlt'
        omega
      subst hlast
      refine .inr ⟨wireName, ?_⟩
      dsimp only
      rw [he]
      exact wire_append_new rfl
  · dsimp only
    rw [he]
    exact hconn

theorem Fitted.addParts (h : Fitted e m s) {id : WireId} {i : Nat}
    (hd : Action.drive id i ∈ actions e m) {f : WireId} (hf : IsFeed m s f)
    (specs : List BufferSpec) (hs : ∀ spec ∈ specs, spec ∈ parts e m (m.wire id) (.wire id i)) :
    Fitted e m { s with module := addParts s.module (.wire f 0) specs } := by
  induction specs generalizing s f with
  | nil => exact h
  | cons spec rest ih =>
    have hadd := h.addBuffer hd (hs spec List.mem_cons_self) (.inr ⟨f, hf, rfl⟩)
    have hnew : IsFeed m { s with module := (Buffering.addBuffer s.module spec.type spec
        (.wire f 0)).2 } s.module.wires.length :=
      h.isFeed_new (by rw [addBuffer_wires_length]; exact Nat.lt_succ_self _)
    exact ih hadd hnew fun spec hspec => hs spec (List.mem_cons_of_mem _ hspec)

theorem parts_length_le (e : Scene) (m : Module) (w : Wire) (bit : Bit) :
    (parts e m w bit).length ≤ 2 := by
  unfold parts
  rw [List.length_append, Option.length_toList, Option.length_toList]
  split <;> split <;> decide

theorem Fitted.drive (h : Fitted e m s) {id : WireId} {i : Nat}
    (hd : Action.drive id i ∈ actions e m) :
    Fitted e m (s.drive e (m.wire id) i (.wire id i) (e.aliases.root (.wire id i))) := by
  obtain ⟨hm, hp, -, hr⟩ := Insertion.drive_spec e s (m.wire id) i (.wire id i)
    (e.aliases.root (.wire id i))
  rw [parts_grown h.grown] at hm hp
  have hlen := parts_length_le e m (m.wire id) (.wire id i)
  cases hparts : parts e m (m.wire id) (.wire id i) with
  | nil =>
    rw [hparts] at hm hp
    exact h.congr hm hp hr
  | cons spec rest =>
    have hspecs : ∀ spec' ∈ spec :: rest, spec' ∈ parts e m (m.wire id) (.wire id i) :=
      fun _ hx => hparts ▸ hx
    have hhead : (parts e m (m.wire id) (.wire id i)).head? = some spec := by rw [hparts]; rfl
    rw [hparts] at hm hp hlen
    rw [if_neg (List.cons_ne_nil _ _)] at hp
    let net := e.aliases.root (.wire id i)
    let s₁ : Insertion := { s with module := (Buffering.addBuffer s.module spec.type spec net).2 }
    let s₂ : Insertion :=
      { s with module := Buffering.addParts s₁.module (.wire s.module.wires.length 0) rest }
    have h₁ : Fitted e m s₁ := h.addBuffer hd (hspecs spec List.mem_cons_self) (.inl ⟨rfl, hhead⟩)
    have hcell : CellAt m s₁ s.module.cells.length spec net s.module.wires.length :=
      h.cellAt_addBuffer spec net
    have h₂ : Fitted e m s₂ :=
      h₁.addParts hd hcell.feeds rest fun x hx => hspecs x (List.mem_cons_of_mem _ hx)
    have hl₂ : Later s₁ s₂ := later_module (Insertion.grown_addParts _ _ _)
    have hplace : PlacementFits e m s₂ net
        ⟨s.module.cells.length, s.module.wires.length + (rest.length + 1) - 1⟩ := by
      refine ⟨id, i, spec, s.module.wires.length, hd, rfl, hhead, hcell.later hl₂, ?_⟩
      -- a chain has at most two cells, so the rest is nothing or the pad
      match hrest : rest with
      | [] => exact .inl rfl
      | [pad] =>
        have hmem : pad ∈ parts e m (m.wire id) (.wire id i) := hspecs pad (by simp)
        refine .inr ⟨s₁.module.cells.length, pad, hmem, ?_⟩
        have hpad := h₁.cellAt_addBuffer pad (.wire s.module.wires.length 0)
        have hw : s₁.module.wires.length = s.module.wires.length + 1 :=
          addBuffer_wires_length _ _ _ _
        rw [hw] at hpad
        subst hrest
        exact hpad
      | _ :: _ :: _ => simp at hlen
    exact h₂.place hplace hm hr hp

/-! ## Copying ports -/

theorem later_replaceInput (e : Scene) (s : Insertion) (id : WireId) (w : Wire) :
    Later s (s.replaceInput e id w) := by
  obtain ⟨name, n, -, he⟩ := Insertion.replaceInput_module e s id w
  refine ⟨Insertion.grown_replaceInput e s id w, fun q hq => ?_⟩
  rw [he] at hq
  rcases List.mem_append.mp hq with hq | hq
  · exact .inl hq
  · exact .inr (by rw [List.mem_singleton.mp hq])

/-- A bit of a copy is connected to that of its port, or to the wire in front of what has been
placed on the net of the port. -/
theorem copiedBit_cases (e : Scene) (s : Insertion) (id : WireId) (i : Nat) :
    Insertion.copiedBit e s id i = .wire id i ∨
      ∃ p, (e.aliases.root (.wire id i), p) ∈ s.placed ∧
        Insertion.copiedBit e s id i = .wire p.feed 0 := by
  unfold Insertion.copiedBit
  split
  · rename_i p hp
    exact .inr ⟨p, mem_of_placedOn? hp, rfl⟩
  · exact .inl rfl

theorem copyConnections_concat {target : WireId → Nat → Bit} {replaced : List (WireId × WireId)}
    {id new : WireId} (hnew : ∀ q ∈ replaced, q.2 ≠ new) (source : Nat → Bit) :
    copyConnections m (replaced ++ [(id, new)]) (Function.update target new source) =
      copyConnections m replaced target ++
        (List.range (m.wire id).width).map fun i => ([source i], [.wire new i]) := by
  have hold : copyConnections m replaced (Function.update target new source) =
      copyConnections m replaced target := by
    unfold copyConnections
    rw [List.flatMap_def, List.flatMap_def]
    refine congrArg List.flatten (List.map_congr_left fun q hq => ?_)
    rw [Function.update_of_ne (hnew q hq)]
  rw [← hold]
  unfold copyConnections
  rw [List.flatMap_append, List.flatMap_singleton, Function.update_self]

theorem Fitted.copies_replaceInput (h : Fitted e m s) (id : WireId) :
    ∃ target, (s.replaceInput e id (m.wire id)).module.connections =
        m.connections ++
          copyConnections m (s.replaceInput e id (m.wire id)).replaced target ∧
      ∀ q ∈ (s.replaceInput e id (m.wire id)).replaced, ∀ i, target q.2 i = .wire q.1 i ∨
        ∃ p, (e.aliases.root (.wire q.1 i), p) ∈ (s.replaceInput e id (m.wire id)).placed ∧
          target q.2 i = .wire p.feed 0 := by
  obtain ⟨name, n, -, he⟩ := Insertion.replaceInput_module e s id (m.wire id)
  have hnew : ∀ q ∈ s.replaced, q.2 ≠ s.module.wires.length := fun q hq =>
    Nat.ne_of_lt (h.replaced q hq).2.2.1
  obtain ⟨target, hc, ht⟩ := h.copies
  refine ⟨Function.update target s.module.wires.length (Insertion.copiedBit e s id), ?_, ?_⟩
  · rw [he]
    dsimp only
    rw [copyConnections_concat hnew, hc, List.append_assoc]
  · rw [he]
    intro q hq i
    rcases List.mem_append.mp hq with hq | hq
    · rw [Function.update_of_ne (hnew q hq)]
      exact ht q hq i
    · obtain rfl := List.mem_singleton.mp hq
      rw [Function.update_self]
      exact copiedBit_cases e s id i

theorem Fitted.replaceInput (h : Fitted e m s) {id : WireId}
    (ha : Action.replace id ∈ actions e m) : Fitted e m (s.replaceInput e id (m.wire id)) := by
  have hcopies := h.copies_replaceInput id
  have hl := later_replaceInput e s id (m.wire id)
  obtain ⟨name, n, hname, he⟩ := Insertion.replaceInput_module e s id (m.wire id)
  have hid : id < m.wires.length := by
    obtain ⟨-, i, hd⟩ := mem_actions_replace.mp ha
    exact Module.lt_of_place (mem_actions_drive.mp hd).1.place
  have hlen : (s.replaceInput e id (m.wire id)).module.wires.length =
      s.module.wires.length + 1 := by
    rw [he, List.length_append, List.length_singleton]
  have hreplaced : (s.replaceInput e id (m.wire id)).replaced =
      s.replaced ++ [(id, s.module.wires.length)] := by rw [he]
  have hcopy : (s.replaceInput e id (m.wire id)).module.wire s.module.wires.length =
      { s.module.wire id with name } := by
    rw [he]
    exact wire_append_new rfl
  refine ⟨h.grown.trans hl.grown, ?_, fun k hk hlt => ?_, fun net p hp => ?_, ?_, ?_, ?_, hcopies⟩
  · rw [he]
    exact ⟨h.names.append_wire hname, h.names.cells⟩
  · rw [he] at hlt
    exact (h.cells k hk hlt).later hl
  · rw [he] at hp
    exact (h.placed net p hp).later hl
  · intro q hq
    rw [hreplaced] at hq
    rcases List.mem_append.mp hq with hq | hq
    · obtain ⟨ha', hge, hlt, name', hw⟩ := h.replaced q hq
      exact ⟨ha', hge, Nat.lt_of_lt_of_le hlt hl.grown.wires_length, name',
        (hl.grown.wire hlt).trans hw⟩
    · rw [List.mem_singleton.mp hq]
      refine ⟨ha, h.grown.wires_length, by rw [hlen]; exact Nat.lt_succ_self _, name, ?_⟩
      rw [hcopy, h.grown.wire hid]
  · rw [hreplaced]
    refine nodup_concat h.nodup fun hmem => ?_
    obtain ⟨q, hq, hlast⟩ := List.mem_map.mp hmem
    exact Nat.ne_of_lt (h.replaced q hq).2.2.1 hlast
  · intro id' hge hlt
    rw [hreplaced, List.map_append]
    by_cases hlt' : id' < s.module.wires.length
    · rw [hl.grown.wire hlt']
      exact (h.wires id' hge hlt').imp_left (List.mem_append_left _)
    · have hlast : id' = s.module.wires.length := by omega
      rw [hlast]
      exact .inl (List.mem_append_right _ (List.mem_singleton.mpr rfl))

/-! ## Whole runs -/

theorem Fitted.apply (h : Fitted e m s) {a : Action} (ha : a ∈ actions e m) :
    Fitted e m (a.apply e m s) := by
  cases a with
  | drive id i => exact h.drive ha
  | publishSink id i => exact h.congr rfl rfl rfl
  | publishBuffered id i => exact h.congr rfl rfl rfl
  | replace id => exact h.replaceInput ha

theorem Fitted.foldl (h : Fitted e m s) {as : List Action} (ha : ∀ a ∈ as, a ∈ actions e m) :
    Fitted e m (as.foldl (Action.apply e m) s) := by
  induction as generalizing s with
  | nil => exact h
  | cons a rest ih =>
    exact ih (h.apply (ha a List.mem_cons_self)) fun b hb => ha b (List.mem_cons_of_mem _ hb)

theorem fitted_visitWires (hs : s.Fresh) : Fitted e s.module (s.visitWires e) := by
  rw [Insertion.visitWires_eq]
  exact (fitted_start hs).foldl fun a ha => ha

end Steps

end ClockNet.Buffering

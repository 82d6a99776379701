import ClockNet.Proofs.Run

/-! # A run keeps modules well formed

Old wires keep their width and new ones have the width that their use asks for, so every bit that
was there stays (`hasBit_complete`). What is put into signals is a bit of the old module, the wire
that feeds an inserted cell, or a bit of the copy of a port (`hasBit_handedSignal`), and connections
of copies go bit by bit. Hence a visit leaves a well-formed module well formed
(`wellFormed_complete`), and a run a well-formed design (`wellFormed_run`). -/

namespace ClockNet

/-- The bit that stands for the net of a bit of a well-formed module is one of its bits. -/
theorem Module.WellFormed.hasBit_root {m : Module} (h : m.WellFormed) (b : Bit) :
    m.HasBit ((AliasMap.ofConnections m.connections).root b) ↔ m.HasBit b := by
  refine AliasMap.root_iff (fun q hq => ?_) b
  obtain ⟨c, hc, hq⟩ := List.mem_flatMap.mp hq
  have hz := List.of_mem_zip hq
  exact iff_of_true (h.connection_bits c hc _ (List.mem_append_left _ hz.1))
    (h.connection_bits c hc _ (List.mem_append_right _ hz.2))

namespace Buffering

namespace Insertion

section Visit
variable {e : Scene} {s : Insertion}

/-! ## Bits of the module in the end -/

theorem width_complete (hs : s.Fresh) {id : WireId} (hid : id < s.module.wires.length) :
    ((s.complete e).module.wire id).width = (s.module.wire id).width := by
  by_cases hr : .replace id ∈ actions e s.module
  · obtain ⟨q, hq, rfl⟩ := List.mem_map.mp ((mem_replaced_inserted hs id).mpr hr)
    rw [complete_wire_port hs hq]
    rfl
  · rw [complete_wire_kept hs hid hr]

theorem hasBit_complete (hs : s.Fresh) {b : Bit} (hb : s.module.HasBit b) :
    (s.complete e).module.HasBit b := by
  cases b with
  | const => trivial
  | wire id i =>
    have hi : i < (s.module.wire id).width := hb
    show i < ((s.complete e).module.wire id).width
    rwa [width_complete hs (Module.lt_of_place hi)]

theorem hasBit_feed (hs : s.Fresh) {f : WireId} (hf : IsFeed s.module (s.inserted e) f) :
    (s.complete e).module.HasBit (.wire f 0) := by
  obtain ⟨name, hw⟩ := complete_wire_feed (e := e) hs hf.new hf.lt hf.not_copy
  show 0 < ((s.complete e).module.wire f).width
  rw [hw]
  exact Nat.one_pos

theorem hasBit_placed (hs : s.Fresh) {net : Bit} {p : Placement}
    (hp : (net, p) ∈ (s.inserted e).placed) : (s.complete e).module.HasBit (.wire p.feed 0) :=
  hasBit_feed hs ((fitted_inserted hs).placed net p hp).isFeed

theorem hasBit_copy (hs : s.Fresh) {q : WireId × WireId} (hq : q ∈ (s.inserted e).replaced)
    {i : Nat} (hi : i < (s.module.wire q.1).width) :
    (s.complete e).module.HasBit (.wire q.2 i) := by
  show i < ((s.complete e).module.wire q.2).width
  rwa [congrArg Wire.width (complete_wire_copy hs hq)]

/-! ## Signals of cells -/

theorem hasBit_handedSignal (hs : s.Fresh) (k : CellId) (c : Cell) (port : String)
    {signal : Signal} (hsignal : ∀ b ∈ signal, (s.complete e).module.HasBit b) :
    ∀ b ∈ handedSignal e (s.inserted e) (s.inserted e).renamed k c port signal,
      (s.complete e).module.HasBit b := by
  unfold handedSignal
  split
  · intro b hb
    obtain ⟨b₀, hb₀, rfl⟩ := List.mem_map.mp hb
    unfold movedBit
    split
    · rename_i p hp
      split
      · exact hsignal b₀ hb₀
      · exact hasBit_placed hs (mem_of_placedOn? hp)
    · exact hsignal b₀ hb₀
  · split
    · have hrestored := forall₂_restoredSignal (widths_renamed (e := e) hs) signal
      have hkept : List.Forall₂ (fun b' _ => (s.complete e).module.HasBit b' ∧ True)
          (restoredSignal (s.inserted e).renamed (s.inserted e).replaced signal) signal := by
        refine ((List.forall₂_and_left _ _).mpr ⟨hsignal, hrestored⟩).flip.imp ?_
        rintro b' b ⟨hb, rfl | ⟨q, hq, i, hi, -, rfl⟩⟩
        · exact ⟨hb, trivial⟩
        · exact ⟨hasBit_copy hs hq ((width_renamed hs hq).1 ▸ hi), trivial⟩
      exact ((List.forall₂_and_left _ _).mp hkept).1
    · exact hsignal

theorem hasBit_inserted (hs : s.Fresh) (hm : s.module.WellFormed)
    (ha : e.aliases = .ofConnections s.module.connections) {c : Cell}
    (hc : c ∈ (s.inserted e).module.cells) :
    ∀ p ∈ c.ports.entries, ∀ b ∈ p.2, (s.complete e).module.HasBit b := by
  have hf := fitted_inserted (e := e) hs
  obtain ⟨k, hk, rfl⟩ := Module.exists_id_of_mem_cells hc
  by_cases hold : k < s.module.cells.length
  · rw [hf.grown.cell hold]
    exact fun p hp b hb =>
      hasBit_complete hs (hm.cell_bits _ (Module.cell_mem hold) p hp b hb)
  · obtain ⟨id, i, spec, output, feed, hdrive, -, hcell, houtput⟩ :=
      hf.cells k (Nat.le_of_not_lt hold) hk
    -- the output of an inserted cell is on a net of the old module or on another inserted cell
    have hbit : (s.complete e).module.HasBit output := by
      rcases houtput with ⟨rfl, -⟩ | ⟨f, hfeed, rfl⟩
      · refine hasBit_complete hs ?_
        rw [ha, hm.hasBit_root]
        exact (mem_actions_drive.mp hdrive).1.place
      · exact hasBit_feed hs hfeed
    obtain ⟨name, hshape⟩ := hcell.shape
    rw [hshape]
    intro p hp b hb
    rcases mem_bufferCell_ports hp with rfl | rfl
    · exact List.mem_singleton.mp hb ▸ hbit
    · exact List.mem_singleton.mp hb ▸ hasBit_feed hs hcell.feeds

/-! ## Visits -/

theorem wellFormed_complete (hs : s.Fresh) (hm : s.module.WellFormed)
    (ha : e.aliases = .ofConnections s.module.connections) :
    (s.complete e).module.WellFormed := by
  have hf := fitted_inserted (e := e) hs
  obtain ⟨target, hconnections, htarget⟩ := hf.copies
  -- a connection is an old one or joins a bit of a copy with one of its port or of an inserted cell
  have hcopy : ∀ c ∈ (s.complete e).module.connections, c ∈ s.module.connections ∨
      ∃ q ∈ (s.inserted e).replaced, ∃ i < (s.module.wire q.1).width,
        c = ([target q.2 i], [.wire q.2 i]) := by
    intro c hc
    rw [complete_connections, hconnections] at hc
    refine (List.mem_append.mp hc).imp_right ?_
    intro hc
    obtain ⟨q, hq, hc⟩ := List.mem_flatMap.mp hc
    obtain ⟨i, hi, rfl⟩ := List.mem_map.mp hc
    exact ⟨q, hq, i, List.mem_range.mp hi, rfl⟩
  obtain ⟨hwires, hcells⟩ := namesUnique_complete (e := e) hs
  refine ⟨hwires, hcells, ?_, ?_, ?_⟩
  · intro c hc p hp
    obtain ⟨k, hk, rfl⟩ := Module.exists_id_of_mem_cells hc
    rw [length_complete_cells] at hk
    rw [complete_cell hk] at hp
    obtain ⟨p₀, hp₀, rfl⟩ := List.mem_map.mp hp
    exact hasBit_handedSignal hs k _ p₀.1 (hasBit_inserted hs hm ha (Module.cell_mem hk) p₀ hp₀)
  · intro c hc b hb
    rcases hcopy c hc with hold | ⟨q, hq, i, hi, rfl⟩
    · exact hasBit_complete hs (hm.connection_bits c hold b hb)
    · rcases List.mem_append.mp hb with hb | hb
      · obtain rfl := List.mem_singleton.mp hb
        rcases htarget q hq i with he | ⟨p, hp, he⟩
        · rw [he]
          exact hasBit_complete hs hi
        · rw [he]
          exact hasBit_placed hs hp
      · exact List.mem_singleton.mp hb ▸ hasBit_copy hs hq hi
  · intro c hc
    rcases hcopy c hc with hold | ⟨q, -, i, -, rfl⟩
    · exact hm.connection_widths c hold
    · rfl

end Visit

end Insertion

/-! ## Runs -/

section
variable {o : Options} {d : Design} {p : Progress}

theorem wellFormed_visit (hp : p.design.WellFormed) (name : String) :
    (visitModule o (buffersInputs o d) p name).design.WellFormed := by
  cases hm : p.design.find? name with
  | none =>
    unfold visitModule
    rw [hm]
    exact hp
  | some m =>
    have hmem := Design.mem_of_find? hm
    obtain rfl := Design.name_of_find? hm
    cases hb : m.isBlackbox with
    | true =>
      rw [visit_blackbox hm hb]
      exact hp
    | false =>
      rw [visit_module hm hb]
      refine ⟨?_, fun x hx => ?_⟩
      · rw [Design.replace_names]
        exact hp.names_nodup
      · rcases mem_replace hx with hx | rfl
        · exact hp.modules x hx
        · exact Insertion.wellFormed_complete (fresh_entry (hp.modules m hmem).namesUnique)
            (hp.modules m hmem) rfl

/-- All through a run the design is well formed and its ports are in order. -/
theorem wellFormed_progressAfter (hd : d.WellFormed) (hp : d.PortsNumbered)
    (names : List String) : (progressAfter o d names).design.WellFormed ∧
      (progressAfter o d names).design.PortsNumbered := by
  refine ⟨?_, (ofDesign_progressAfter hd.namesUnique hp names).2.1⟩
  induction names using List.reverseRecOn with
  | nil => exact hd
  | append_singleton names last ih =>
    rw [progressAfter_append]
    exact wellFormed_visit ih last

/-- A run leaves a well-formed design with its ports in order as such. -/
theorem wellFormed_run (hd : d.WellFormed) (hp : d.PortsNumbered) (h : run o d = .ok p) :
    p.design.WellFormed ∧ p.design.PortsNumbered := by
  obtain ⟨-, hdesign, -⟩ := run_ok h
  rw [hdesign]
  exact wellFormed_progressAfter hd hp _

end

end Buffering

end ClockNet

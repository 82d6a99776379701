import ClockNet.Proofs.FixedPoint
import ClockNet.Proofs.Growth
import ClockNet.Rtlil.Parser

/-! # What is loaded is well formed

A signal that is read refers to wires that are there, at places that they have (`signal_bits`), and
wires, cells and connections are refused where they would not fit. So each part of a module leaves
it well formed (`wellFormed_moduleBody`), and the end of a module numbers its ports. Whatever
netlist text is accepted is a design with both properties (`wellFormed_parse`). -/

namespace ClockNet

namespace Module

/-! ## Parts of a module -/

variable {m m' : Module}

theorem HasBit.grown (h : m.Grown m') {b : Bit} (hb : m.HasBit b) : m'.HasBit b := by
  cases b with
  | const => trivial
  | wire id i =>
    have hi : i < (m.wire id).width := hb
    show i < (m'.wire id).width
    rwa [h.wire (lt_of_place hi)]

theorem grown_addWire (m : Module) (w : Wire) : m.Grown (m.addWire w) :=
  ⟨rfl, rfl, rfl, List.prefix_append _ _, List.prefix_rfl, List.prefix_rfl⟩

theorem wellFormed_bare (name : String) (a : Attributes) :
    Module.WellFormed { name, attributes := a } := by
  refine ⟨List.nodup_nil, List.nodup_nil, ?_, ?_, ?_⟩
  all_goals
    intro c hc
    cases hc

theorem WellFormed.addWire (h : m.WellFormed) {w : Wire} (hw : m.findWire w.name = none) :
    (m.addWire w).WellFormed where
  wires_nodup := nodup_concat h.wires_nodup (findWire_eq_none.mp hw)
  cells_nodup := h.cells_nodup
  cell_bits c hc e he b hb := (h.cell_bits c hc e he b hb).grown (m.grown_addWire w)
  connection_bits c hc b hb := (h.connection_bits c hc b hb).grown (m.grown_addWire w)
  connection_widths := h.connection_widths

theorem WellFormed.addCell (h : m.WellFormed) {c : Cell} (hc : m.findCell c.name = none)
    (hbits : ∀ e ∈ c.ports.entries, ∀ b ∈ e.2, m.HasBit b) : (m.addCell c).WellFormed where
  wires_nodup := h.wires_nodup
  cells_nodup := nodup_concat h.cells_nodup (findCell_eq_none.mp hc)
  cell_bits c' hc' := by
    rcases List.mem_append.mp hc' with hc' | hc'
    · exact h.cell_bits c' hc'
    · exact List.mem_singleton.mp hc' ▸ hbits
  connection_bits := h.connection_bits
  connection_widths := h.connection_widths

theorem WellFormed.connect (h : m.WellFormed) {driven driver : Signal}
    (hbits : ∀ b ∈ driven ++ driver, m.HasBit b) (hwidth : driven.length = driver.length) :
    (m.connect driven driver).WellFormed where
  wires_nodup := h.wires_nodup
  cells_nodup := h.cells_nodup
  cell_bits := h.cell_bits
  connection_bits c hc := by
    rcases List.mem_append.mp hc with hc | hc
    · exact h.connection_bits c hc
    · exact List.mem_singleton.mp hc ▸ hbits
  connection_widths c hc := by
    rcases List.mem_append.mp hc with hc | hc
    · exact h.connection_widths c hc
    · exact List.mem_singleton.mp hc ▸ hwidth

theorem WellFormed.renumberPorts (h : m.WellFormed) : m.renumberPorts.WellFormed := by
  have hbit : ∀ {b}, m.HasBit b → m.renumberPorts.HasBit b := by
    intro b hb
    cases b with
    | const => trivial
    | wire id i =>
      show i < (m.renumberPorts.wire id).width
      rw [wire_renumberPorts]
      exact hb
  refine ⟨?_, h.cells_nodup, fun c hc e he b hb => hbit (h.cell_bits c hc e he b hb),
    fun c hc b hb => hbit (h.connection_bits c hc b hb), h.connection_widths⟩
  refine wires_nodup_of_inj fun i hi j hj he => ?_
  rw [length_renumberPorts] at hi hj
  rw [wire_renumberPorts, wire_renumberPorts] at he
  exact wire_inj_of_name h.wires_nodup hi hj he

end Module

namespace Design
variable {d : Design} {m : Module}

theorem WellFormed.add (h : d.WellFormed) (hnew : d.find? m.name = none) (hm : m.WellFormed) :
    (d.add m).WellFormed where
  names_nodup := nodup_concat h.names_nodup (find?_eq_none.mp hnew)
  modules m' hm' := by
    rcases List.mem_append.mp hm' with hm' | hm'
    · exact h.modules m' hm'
    · exact List.mem_singleton.mp hm' ▸ hm

theorem PortsNumbered.add (h : d.PortsNumbered) (hm : m.PortsNumbered) :
    (d.add m).PortsNumbered := by
  intro m' hm'
  rcases List.mem_append.mp hm' with hm' | hm'
  · exact h m' hm'
  · exact List.mem_singleton.mp hm' ▸ hm

end Design

namespace Rtlil

/-! ## Signals -/

section
variable {lastLine : Nat} {m m' : Module} {s : Signal} {ts rest : List Located}

theorem lt_of_placeOf {w : Wire} {index : Int} {place : Nat} (h : w.placeOf index = some place) :
    place < w.width := by
  obtain ⟨hplace, h⟩ := Option.ite_none_right_eq_some.mp h
  obtain rfl := Option.some.inj h
  omega

theorem wireSlice_bits {id : WireId} (h : wireSlice lastLine id (m.wire id) ts = .ok (s, rest)) :
    ∀ b ∈ s, m.HasBit b := by
  unfold wireSlice at h
  split at h
  · obtain ⟨⟨first, ts₁⟩, -, h⟩ := Text.of_bind_ok h
    obtain ⟨⟨last, ts₂⟩, -, h⟩ := Text.of_bind_ok h
    obtain ⟨ts₃, -, h⟩ := Text.of_bind_ok h
    dsimp only at h
    split at h
    · rename_i high low hhigh hlow
      split at h
      · cases h
        intro b hb
        obtain ⟨i, hi, rfl⟩ := List.mem_map.mp hb
        have hlast := (List.mem_range'_1.mp hi).2
        have hwidth := lt_of_placeOf hhigh
        show i < (m.wire id).width
        omega
      · cases h
    · cases h
  · cases h
    intro b hb
    obtain ⟨i, hi, rfl⟩ := List.mem_map.mp hb
    exact List.mem_range.mp hi

theorem ofConst_bits (m : Module) (c : Const) : ∀ b ∈ Signal.ofConst c, m.HasBit b := by
  intro b hb
  obtain ⟨t, -, rfl⟩ := List.mem_map.mp hb
  trivial

theorem chunk_bits (h : chunk lastLine m ts = .ok (s, rest)) : ∀ b ∈ s, m.HasBit b := by
  unfold chunk at h
  split at h
  · cases h
    exact ofConst_bits m _
  · cases h
    exact ofConst_bits m _
  · split at h
    · cases h
    · exact wireSlice_bits h
  · cases h
  · cases h

/-- The bits of the parts within open braces are there, so those of the signal are. -/
theorem signalWithin_bits {opened : List (List Signal)}
    (hopened : ∀ parts ∈ opened, ∀ b ∈ parts.flatten, m.HasBit b)
    (h : signalWithin lastLine m opened ts = .ok (s, rest)) : ∀ b ∈ s, m.HasBit b := by
  fun_induction signalWithin lastLine m opened ts with
  | case1 opened l ts ih => exact ih (by simpa using hopened) h
  | case2 l ts => cases h
  | case3 l ts parts =>
    cases h
    exact hopened parts List.mem_cons_self
  | case4 l ts parts outer rest' ih =>
    refine ih ?_ h
    rw [List.forall_mem_cons, List.forall_mem_cons] at hopened
    obtain ⟨hparts, houter, hrest⟩ := hopened
    rw [List.forall_mem_cons, List.flatten_cons]
    exact ⟨fun b hb => (List.mem_append.mp hb).elim (hparts b) (houter b), hrest⟩
  | case5 opened ts _ _ ih =>
    obtain ⟨⟨part, ts₁⟩, hchunk, h⟩ := Text.of_andThen_ok h
    have hpart := chunk_bits hchunk
    split at h
    · cases h
      exact hpart
    · refine ih _ hchunk _ _ ?_ h
      obtain ⟨hparts, hrest⟩ := List.forall_mem_cons.mp hopened
      rw [List.forall_mem_cons, List.flatten_cons]
      exact ⟨fun b hb => (List.mem_append.mp hb).elim (hpart b) (hparts b), hrest⟩

theorem signal_bits (h : signal lastLine m ts = .ok (s, rest)) : ∀ b ∈ s, m.HasBit b :=
  signalWithin_bits (by simp) h

/-! ## Wires, cells and connections -/

theorem wellFormed_wire {a : Attributes} (hm : m.WellFormed)
    (h : wire lastLine m a ts = .ok (m', rest)) : m'.name = m.name ∧ m'.WellFormed := by
  obtain ⟨⟨w, ts₁⟩, -, h⟩ := Text.of_bind_ok h
  obtain ⟨⟨name, ts₂⟩, -, h⟩ := Text.of_bind_ok h
  dsimp only at h
  split at h
  · rename_i m₁ hadd
    cases h
    obtain ⟨hnew, he⟩ := Option.ite_none_right_eq_some.mp hadd
    obtain rfl := Option.some.inj he
    exact ⟨rfl, hm.addWire hnew⟩
  · cases h

theorem portConnection_bits {c : String × Signal}
    (h : portConnection lastLine m ts = .ok (c, rest)) : ∀ b ∈ c.2, m.HasBit b := by
  obtain ⟨⟨port, ts₁⟩, -, h⟩ := Text.of_bind_ok h
  obtain ⟨⟨s, ts₂⟩, hs, h⟩ := Text.of_bind_ok h
  cases h
  exact signal_bits hs

theorem cellBody_bits {c c' : Cell} (hc : ∀ e ∈ c.ports.entries, ∀ b ∈ e.2, m.HasBit b)
    (h : cellBody lastLine m c ts = .ok (c', rest)) :
    c'.name = c.name ∧ ∀ e ∈ c'.ports.entries, ∀ b ∈ e.2, m.HasBit b := by
  fun_induction cellBody lastLine m c ts with
  | case1 c l ts =>
    cases h
    exact ⟨rfl, hc⟩
  | case2 c l ts ih =>
    obtain ⟨r, hr, h⟩ := Text.of_andThen_ok h
    exact ih r hr hc h
  | case3 c l ts ih =>
    obtain ⟨⟨⟨port, s⟩, ts₁⟩, hport, h⟩ := Text.of_andThen_ok h
    refine ih _ hport ?_ h
    intro e he
    -- setting a port is a table with one binding more
    have hset : e ∈ ([(port, s)].foldl (fun t e => t.set e.1 e.2) c.ports).entries := he
    rcases NetlistJson.mem_foldl_set hset with he | he
    · exact hc e he
    · exact List.mem_singleton.mp he ▸ portConnection_bits hport
  | case4 => cases h
  | case5 => cases h

theorem wellFormed_cell {a : Attributes} (hm : m.WellFormed)
    (h : cell lastLine m a ts = .ok (m', rest)) : m'.name = m.name ∧ m'.WellFormed := by
  obtain ⟨⟨type, ts₁⟩, -, h⟩ := Text.of_bind_ok h
  obtain ⟨⟨name, ts₂⟩, -, h⟩ := Text.of_bind_ok h
  dsimp only at h
  split at h
  · cases h
  · rename_i hnew
    obtain ⟨⟨c, ts₃⟩, hbody, h⟩ := Text.of_bind_ok h
    cases h
    obtain ⟨hname, hbits⟩ := cellBody_bits (by simp [OrderedTable.empty]) hbody
    exact ⟨rfl, hm.addCell (hname ▸ Option.not_isSome_iff_eq_none.mp hnew) hbits⟩

theorem wellFormed_connection (hm : m.WellFormed)
    (h : connection lastLine m ts = .ok (m', rest)) : m'.name = m.name ∧ m'.WellFormed := by
  obtain ⟨⟨driven, ts₁⟩, hdriven, h⟩ := Text.of_bind_ok h
  obtain ⟨⟨driver, ts₂⟩, hdriver, h⟩ := Text.of_bind_ok h
  dsimp only at h
  split at h
  · rename_i m₁ hconnect
    cases h
    obtain ⟨hwidth, he⟩ := Option.ite_none_right_eq_some.mp hconnect
    obtain rfl := Option.some.inj he
    refine ⟨rfl, hm.connect ?_ hwidth⟩
    exact fun b hb => (List.mem_append.mp hb).elim (signal_bits hdriven b) (signal_bits hdriver b)
  · cases h

/-! ## Modules and designs -/

/-- Each part leaves a module well formed, and its end puts the ports in order. -/
theorem wellFormed_moduleBody {a : Attributes} (hm : m.WellFormed)
    (h : moduleBody lastLine m a ts = .ok (m', rest)) :
    m'.name = m.name ∧ m'.WellFormed ∧ m'.PortsNumbered := by
  fun_induction moduleBody lastLine m a ts with
  | case1 m a l ts =>
    cases h
    exact ⟨rfl, hm.renumberPorts, m.renumberPorts_renumberPorts⟩
  | case2 m a l ts ih =>
    obtain ⟨r, hr, h⟩ := Text.of_andThen_ok h
    exact ih r hr hm h
  | case3 m a l ts ih =>
    obtain ⟨r, hr, h⟩ := Text.of_andThen_ok h
    obtain ⟨hname, hstep⟩ := wellFormed_wire hm hr
    obtain ⟨hname', hwell⟩ := ih r hr hstep h
    exact ⟨hname'.trans hname, hwell⟩
  | case4 m a l ts ih =>
    obtain ⟨r, hr, h⟩ := Text.of_andThen_ok h
    obtain ⟨hname, hstep⟩ := wellFormed_cell hm hr
    obtain ⟨hname', hwell⟩ := ih r hr hstep h
    exact ⟨hname'.trans hname, hwell⟩
  | case5 m a l ts ih =>
    obtain ⟨r, hr, h⟩ := Text.of_andThen_ok h
    obtain ⟨hname, hstep⟩ := wellFormed_connection hm hr
    obtain ⟨hname', hwell⟩ := ih r hr hstep h
    exact ⟨hname'.trans hname, hwell⟩
  | case6 m a l ts ih =>
    obtain ⟨r, hr, h⟩ := Text.of_andThen_ok h
    exact ih r hr hm h
  | case7 => cases h
  | case8 => cases h

theorem wellFormed_module {d d' : Design} {a : Attributes} (hd : d.WellFormed)
    (hp : d.PortsNumbered) (h : module lastLine d a ts = .ok (d', rest)) :
    d'.WellFormed ∧ d'.PortsNumbered := by
  obtain ⟨⟨name, ts₁⟩, -, h⟩ := Text.of_bind_ok h
  dsimp only at h
  split at h
  · cases h
  · rename_i hnew
    obtain ⟨⟨m, ts₂⟩, hbody, h⟩ := Text.of_bind_ok h
    cases h
    obtain ⟨hname, hwell, hnumbered⟩ := wellFormed_moduleBody (Module.wellFormed_bare name a) hbody
    exact ⟨hd.add (hname ▸ Option.not_isSome_iff_eq_none.mp hnew) hwell, hp.add hnumbered⟩

theorem wellFormed_designBody {d d' : Design} {a : Attributes} (hd : d.WellFormed)
    (hp : d.PortsNumbered) (h : designBody lastLine d a ts = .ok d') :
    d'.WellFormed ∧ d'.PortsNumbered := by
  fun_induction designBody lastLine d a ts with
  | case1 d a =>
    cases h
    exact ⟨hd, hp⟩
  | case2 d a l ts ih =>
    obtain ⟨r, hr, h⟩ := Text.of_andThen_ok h
    exact ih r hr hd hp h
  | case3 d a l ts ih =>
    obtain ⟨r, hr, h⟩ := Text.of_andThen_ok h
    exact ih r hr hd hp h
  | case4 d a l ts ih =>
    obtain ⟨r, hr, h⟩ := Text.of_andThen_ok h
    obtain ⟨hd', hp'⟩ := wellFormed_module hd hp hr
    exact ih r hr hd' hp' h
  | case5 => cases h

end

/-- Whatever netlist text is read gives a well-formed design with its ports in order. -/
theorem wellFormed_parse {text : String} {d : Design} (h : parse text = .ok d) :
    d.WellFormed ∧ d.PortsNumbered := by
  obtain ⟨ts, -, h⟩ := Text.of_bind_ok h
  have hnone : Design.WellFormed {} := ⟨List.nodup_nil, fun _ hm => nomatch hm⟩
  exact wellFormed_designBody hnone (fun _ hm => nomatch hm) h

end Rtlil

end ClockNet

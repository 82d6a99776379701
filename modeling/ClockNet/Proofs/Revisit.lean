import ClockNet.Proofs.Pins

/-! # The clock nets at a second visit

A module is visited, and what the visit has left is visited again, by a run that knows of the
cells what the first one knew, and perhaps of more buffered outputs (`Revisit`). Each net of the
module at the start is a net in the end, and the demand on it is the same (`demanded_revisit`);
what was buffered still is (`supplied_revisit`), and so is each net on which a cell has been
placed (`shown_of_placed`). So a net that wants a clock at the second visit wanted one at the
first, and has been given no cell (`wanting_revisit`). -/

namespace ClockNet.Buffering

open Insertion
open Survey (portBit?)

/-! ## What a module shows -/

/-- The clock nets that the pins of a module show, before the inverters hand anything on. -/
def shown (t : Tags) (m : Module) : Clocks :=
  (Survey.ofModule t (.ofConnections m.connections) m).clocks

/-- The inverters of a module, by the nets of their outputs and inputs. -/
def invertersIn (t : Tags) (m : Module) : List Inverter :=
  Pin.inverters t (.ofConnections m.connections) m

/-- The bit stands for a net of the module. -/
structure IsNet (m : Module) (net : Bit) : Prop where
  owns : m.Owns net
  root : netOf m net = net

section
variable {t : Tags} {m : Module} {net : Bit} {i : Inverter}

theorem isNet_netOf (hm : m.WellFormed) {b : Bit} (hb : m.Owns b) : IsNet m (netOf m b) :=
  ⟨(hm.owns_root b).mpr hb, (AliasMap.settled_ofConnections _).root_root b⟩

theorem owns_portBit? (hm : m.WellFormed) {k : CellId} (hk : k < m.cells.length) {port : String}
    {j : Nat} {b : Bit} (h : portBit? (m.cell k) port j = some b) : m.Owns b :=
  Pin.owns hm (π := ⟨m.cell k, port, j, b⟩) (Pin.mem_ofModule_iff.mpr ⟨k, hk, rfl, h⟩)

theorem mem_shown_sinks : net ∈ (shown t m).sinks ↔ ∃ k < m.cells.length, ∃ port j b,
    portBit? (m.cell k) port j = some b ∧ ⟨(m.cell k).type, port, j⟩ ∈ t.sinks ∧
      net = netOf m b := by
  refine Survey.mem_sinks_survey.trans ⟨?_, ?_⟩
  · intro h
    obtain ⟨π, hπ, ht, rfl⟩ := h
    obtain ⟨k, hk, hc, hb⟩ := Pin.mem_ofModule_iff.mp hπ
    exact ⟨k, hk, π.port, π.index, π.bit, hb, hc ▸ ht, rfl⟩
  · intro h
    obtain ⟨k, hk, port, j, b, hb, ht, rfl⟩ := h
    exact ⟨⟨m.cell k, port, j, b⟩, Pin.mem_ofModule_iff.mpr ⟨k, hk, rfl, hb⟩, ht, rfl⟩

theorem mem_shown_buffered : net ∈ (shown t m).buffered ↔ ∃ k < m.cells.length, ∃ port j b,
    portBit? (m.cell k) port j = some b ∧ ⟨(m.cell k).type, port, j⟩ ∈ t.buffered ∧
      net = netOf m b := by
  refine Survey.mem_buffered_survey.trans ⟨?_, ?_⟩
  · intro h
    obtain ⟨π, hπ, ht, rfl⟩ := h
    obtain ⟨k, hk, hc, hb⟩ := Pin.mem_ofModule_iff.mp hπ
    exact ⟨k, hk, π.port, π.index, π.bit, hb, hc ▸ ht, rfl⟩
  · intro h
    obtain ⟨k, hk, port, j, b, hb, ht, rfl⟩ := h
    exact ⟨⟨m.cell k, port, j, b⟩, Pin.mem_ofModule_iff.mpr ⟨k, hk, rfl, hb⟩, ht, rfl⟩

theorem inverter?_eq_some {aliases : AliasMap} {π : Pin} : π.inverter? t aliases = some i ↔
    ∃ input b, t.inverterInput? π.portBit = some input ∧
      portBit? π.cell input π.index = some b ∧ i = ⟨aliases.root π.bit, aliases.root b⟩ := by
  unfold Pin.inverter?
  rw [Option.map_eq_some_iff]
  constructor
  · intro h
    obtain ⟨b, hb, rfl⟩ := h
    obtain ⟨input, hinput, hb⟩ := Option.bind_eq_some_iff.mp hb
    exact ⟨input, b, hinput, hb, rfl⟩
  · intro h
    obtain ⟨input, b, hinput, hb, rfl⟩ := h
    exact ⟨b, Option.bind_eq_some_iff.mpr ⟨input, hinput, hb⟩, rfl⟩

theorem mem_invertersIn : i ∈ invertersIn t m ↔ ∃ k < m.cells.length, ∃ port j b input b₂,
    portBit? (m.cell k) port j = some b ∧
      t.inverterInput? ⟨(m.cell k).type, port, j⟩ = some input ∧
      portBit? (m.cell k) input j = some b₂ ∧ i = ⟨netOf m b, netOf m b₂⟩ := by
  unfold invertersIn Pin.inverters
  simp only [List.mem_filterMap, inverter?_eq_some]
  constructor
  · intro h
    obtain ⟨π, hπ, input, b₂, hinput, hb₂, rfl⟩ := h
    obtain ⟨k, hk, hc, hb⟩ := Pin.mem_ofModule_iff.mp hπ
    exact ⟨k, hk, π.port, π.index, π.bit, input, b₂, hb, hc ▸ hinput, hc ▸ hb₂, rfl⟩
  · intro h
    obtain ⟨k, hk, port, j, b, input, b₂, hb, hinput, hb₂, rfl⟩ := h
    exact ⟨⟨m.cell k, port, j, b⟩, Pin.mem_ofModule_iff.mpr ⟨k, hk, rfl, hb⟩, input, b₂, hinput,
      hb₂, rfl⟩

theorem isNet_inverter (hm : m.WellFormed) (hi : i ∈ invertersIn t m) :
    IsNet m i.output ∧ IsNet m i.input := by
  obtain ⟨k, hk, port, j, b, input, b₂, hb, -, hb₂, rfl⟩ := mem_invertersIn.mp hi
  exact ⟨isNet_netOf hm (owns_portBit? hm hk hb), isNet_netOf hm (owns_portBit? hm hk hb₂)⟩

theorem isNet_sinks (hm : m.WellFormed) (h : net ∈ (shown t m).sinks) : IsNet m net := by
  obtain ⟨k, hk, port, j, b, hb, -, rfl⟩ := mem_shown_sinks.mp h
  exact isNet_netOf hm (owns_portBit? hm hk hb)

end

/-! ## Two visits -/

/-- A scene is what the pins of a module show with some tags. -/
structure Surveyed (e : Scene) (m : Module) (t : Tags) : Prop where
  aliases : e.aliases = .ofConnections m.connections
  clocks : e.clocks = (shown t m).settle (invertersIn t m)
  driven : e.driven = drivenBits e.options e.signatures m

/-- What tags say of the ports of cells: sinks are inputs, and inverters lead from an input to an
output. -/
structure Directed (signatures : Signatures) (t : Tags) (c : Cell) : Prop where
  sink : ∀ port j, ⟨c.type, port, j⟩ ∈ t.sinks → signatures.isOutput c port = false
  inverter : ∀ port j input, t.inverterInput? ⟨c.type, port, j⟩ = some input →
    signatures.isOutput c port = true ∧ signatures.isOutput c input = false

/-- Later tags say of a cell's ports what the earlier ones say, and perhaps that more outputs are
buffered, none of which is one of an inverter. -/
structure Retold (signatures : Signatures) (t t' : Tags) (c : Cell) : Prop where
  sinks : ∀ port j, ⟨c.type, port, j⟩ ∈ t'.sinks ↔ ⟨c.type, port, j⟩ ∈ t.sinks
  inverters : ∀ port j, t'.inverterInput? ⟨c.type, port, j⟩ = t.inverterInput? ⟨c.type, port, j⟩
  buffered : ∀ port j, ⟨c.type, port, j⟩ ∈ t.buffered → ⟨c.type, port, j⟩ ∈ t'.buffered
  fresh : ∀ port j, ⟨c.type, port, j⟩ ∈ t'.buffered → ⟨c.type, port, j⟩ ∈ t.buffered ∨
    (signatures.isOutput c port = true ∧ t.inverterInput? ⟨c.type, port, j⟩ = none)

/-- Tags say of a cell type no more than that some of its outputs are buffered. -/
structure Plain (t : Tags) (type : String) : Prop where
  sinks : ∀ port j, ⟨type, port, j⟩ ∉ t.sinks
  inverters : ∀ port j, t.inverterInput? ⟨type, port, j⟩ = none

/-- A module is visited, and what the visit has left is visited again. -/
structure Revisit (e : Scene) (s : Insertion) (t : Tags) (e' : Scene) (t' : Tags) : Prop where
  fresh : s.Fresh
  well : s.module.WellFormed
  single : SingleDriver e.signatures s.module
  outputs : DrivesOutputs e
  given : e.options.buffer.isSome ∨ e.options.pad.isSome
  before : Surveyed e s.module t
  clocked : ∀ type ∈ (Survey.ofModule t (.ofConnections s.module.connections) s.module).clocked,
    type ∈ s.tags.clocked
  after : Surveyed e' (s.complete e).module t'
  options : e'.options = e.options
  signatures : e'.signatures = e.signatures
  pads : e'.buffersInputs = e.buffersInputs
  directed : ∀ c ∈ s.module.cells, Directed e.signatures t c
  retold : ∀ c ∈ s.module.cells, Retold e.signatures t t' c
  plain : ∀ spec ∈ e.options.placeable, Plain t' spec.type
  heads : ∀ id i spec, .drive id i ∈ actions e s.module →
    (parts e s.module (s.module.wire id) (.wire id i)).head? = some spec →
    ⟨spec.type, spec.output, 0⟩ ∈ t'.buffered

namespace Revisit
variable {e e' : Scene} {s : Insertion} {t t' : Tags} {k : CellId} {net : Bit} {i : Inverter}

/-! ## Nets of both visits -/

theorem netOf_inj (h : Revisit e s t e' t') {x y : Bit} (hx : IsNet s.module x)
    (hy : IsNet s.module y)
    (he : netOf (s.complete e).module x = netOf (s.complete e).module y) : x = y := by
  rw [← hx.root, ← hy.root]
  exact (netOf_complete_iff h.fresh h.well h.before.aliases hx.owns hy.owns).mp he

theorem netOf_root (h : Revisit e s t e' t') (x : Bit) :
    netOf (s.complete e).module (netOf s.module x) = netOf (s.complete e).module x :=
  netOf_complete_root h.fresh h.before.aliases x

theorem isNet_placed (h : Revisit e s t e' t')
    (hp : net ∈ (s.inserted e).placed.map Prod.fst) : IsNet s.module net :=
  ⟨owns_of_placed h.fresh h.well h.before.aliases hp, netOf_of_placed h.fresh h.before.aliases hp⟩

theorem type_old (h : Revisit e s t e' t') (hk : k < s.module.cells.length) :
    ((s.complete e).module.cell k).type = (s.module.cell k).type := by
  rw [complete_cell_old h.fresh hk]
  rfl

theorem lt_of_old (h : Revisit e s t e' t') (hk : k < s.module.cells.length) :
    k < (s.complete e).module.cells.length := by
  rw [length_complete_cells]
  exact Nat.lt_of_lt_of_le hk (fitted_inserted h.fresh).grown.cells_length

theorem new_type (h : Revisit e s t e' t') (hk : ¬ k < s.module.cells.length)
    (hlt : k < (s.complete e).module.cells.length) :
    Plain t' ((s.complete e).module.cell k).type := by
  obtain ⟨spec, hspec, htype, -⟩ := pin_of_inserted h.fresh h.well h.before.aliases h.outputs
    (Nat.le_of_not_lt hk) hlt
  rw [htype]
  exact h.plain spec hspec

/-! ## Sinks and inverters -/

theorem clocked_of_sink (h : Revisit e s t e' t') (hk : k < s.module.cells.length) {port : String}
    {j : Nat} {b : Bit} (hb : portBit? (s.module.cell k) port j = some b)
    (ht : ⟨(s.module.cell k).type, port, j⟩ ∈ t.sinks) :
    (s.module.cell k).type ∈ s.tags.clocked := by
  refine h.clocked _ (Survey.mem_clocked_survey.mpr ⟨⟨s.module.cell k, port, j, b⟩, ?_, .inl ht,
    rfl⟩)
  exact Pin.mem_ofModule_iff.mpr ⟨k, hk, rfl, hb⟩

theorem clocked_of_inverter (h : Revisit e s t e' t') (hk : k < s.module.cells.length)
    {port input : String} {j : Nat} {b b₂ : Bit}
    (hb : portBit? (s.module.cell k) port j = some b)
    (ht : t.inverterInput? ⟨(s.module.cell k).type, port, j⟩ = some input)
    (hb₂ : portBit? (s.module.cell k) input j = some b₂) :
    (s.module.cell k).type ∈ s.tags.clocked := by
  refine h.clocked _ (Survey.mem_clocked_survey.mpr ⟨⟨s.module.cell k, port, j, b⟩, ?_, .inr ?_,
    rfl⟩)
  · exact Pin.mem_ofModule_iff.mpr ⟨k, hk, rfl, hb⟩
  · rw [inverter?_eq_some.mpr ⟨input, b₂, ht, hb₂, rfl⟩]
    rfl

theorem mem_sinks_revisit (h : Revisit e s t e' t') :
    net ∈ (shown t' (s.complete e).module).sinks ↔
      ∃ x ∈ (shown t s.module).sinks, net = netOf (s.complete e).module x := by
  constructor
  · intro hnet
    obtain ⟨k, hk, port, j, b, hb, ht, rfl⟩ := mem_shown_sinks.mp hnet
    by_cases hold : k < s.module.cells.length
    · have hc := Module.cell_mem hold
      rw [h.type_old hold, (h.retold _ hc).sinks] at ht
      obtain ⟨b₀, hb₀, -⟩ := pin_before h.fresh h.well h.before.aliases hold hb
      rw [portBit?_clocked h.fresh hold ((h.directed _ hc).sink port j ht)
        (h.clocked_of_sink hold hb₀ ht)] at hb
      exact ⟨_, mem_shown_sinks.mpr ⟨k, hold, port, j, b, hb, ht, rfl⟩, (h.netOf_root b).symm⟩
    · exact absurd ht ((h.new_type hold hk).sinks port j)
  · intro hex
    obtain ⟨x, hx, rfl⟩ := hex
    obtain ⟨k, hk, port, j, b, hb, ht, rfl⟩ := mem_shown_sinks.mp hx
    have hc := Module.cell_mem hk
    refine mem_shown_sinks.mpr ⟨k, h.lt_of_old hk, port, j, b, ?_, ?_, h.netOf_root b⟩
    · rw [portBit?_clocked h.fresh hk ((h.directed _ hc).sink port j ht)
        (h.clocked_of_sink hk hb ht)]
      exact hb
    · rw [h.type_old hk]
      exact ((h.retold _ hc).sinks port j).mpr ht

/-- No cell is placed on the output of an inverter: its input takes the cell. -/
theorem output_not_placed (h : Revisit e s t e' t') (hi : i ∈ invertersIn t s.module) :
    i.output ∉ (s.inserted e).placed.map Prod.fst := by
  intro hp
  have hwants := wanting_of_placed h.fresh hp
  rw [h.before.clocks] at hwants
  exact hwants.2 (Clocks.closed_settle _ hi (.inr hwants.1))

theorem mem_inverters_revisit (h : Revisit e s t e' t') :
    i ∈ invertersIn t' (s.complete e).module ↔ ∃ x ∈ invertersIn t s.module,
      i = ⟨netOf (s.complete e).module x.output, netOf (s.complete e).module x.input⟩ := by
  constructor
  · intro hi
    obtain ⟨k, hk, port, j, b, input, b₂, hb, ht, hb₂, rfl⟩ := mem_invertersIn.mp hi
    by_cases hold : k < s.module.cells.length
    · have hc := Module.cell_mem hold
      rw [h.type_old hold, (h.retold _ hc).inverters] at ht
      obtain ⟨-, hin⟩ := (h.directed _ hc).inverter port j input ht
      obtain ⟨b₀, hb₀, hhanded⟩ := pin_before h.fresh h.well h.before.aliases hold hb
      obtain ⟨b₃, hb₃, -⟩ := pin_before h.fresh h.well h.before.aliases hold hb₂
      rw [portBit?_clocked h.fresh hold hin (h.clocked_of_inverter hold hb₀ ht hb₃)] at hb₂
      have hx := mem_invertersIn.mpr ⟨k, hold, port, j, b₀, input, b₂, hb₀, ht, hb₂, rfl⟩
      refine ⟨_, hx, ?_⟩
      rcases hhanded with he | ⟨hp, -⟩
      · dsimp only
        rw [h.netOf_root, h.netOf_root, he]
      · exact absurd hp (h.output_not_placed hx)
    · rw [(h.new_type hold hk).inverters port j] at ht
      cases ht
  · intro hex
    obtain ⟨x, hx, rfl⟩ := hex
    obtain ⟨k, hk, port, j, b, input, b₂, hb, ht, hb₂, rfl⟩ := mem_invertersIn.mp hx
    have hc := Module.cell_mem hk
    obtain ⟨-, hin⟩ := (h.directed _ hc).inverter port j input ht
    obtain ⟨b', hb', hhanded⟩ := pin_after h.fresh h.well h.before.aliases hk hb
    refine mem_invertersIn.mpr ⟨k, h.lt_of_old hk, port, j, b', input, b₂, hb', ?_, ?_, ?_⟩
    · rw [h.type_old hk, (h.retold _ hc).inverters]
      exact ht
    · rw [portBit?_clocked h.fresh hk hin (h.clocked_of_inverter hk hb ht hb₂)]
      exact hb₂
    · rcases hhanded with he | ⟨hp, -⟩
      · dsimp only
        rw [h.netOf_root, h.netOf_root, he]
      · exact absurd hp (h.output_not_placed hx)

theorem exists_pin_of_inverter (hi : i ∈ invertersIn t s.module) :
    ∃ π ∈ Pin.ofModule s.module, netOf s.module π.bit = i.output ∧ ∃ input b₂,
      t.inverterInput? π.portBit = some input ∧ portBit? π.cell input π.index = some b₂ ∧
      i.input = netOf s.module b₂ := by
  obtain ⟨k, hk, port, j, b, input, b₂, hb, ht, hb₂, rfl⟩ := mem_invertersIn.mp hi
  exact ⟨⟨s.module.cell k, port, j, b⟩, Pin.mem_ofModule_iff.mpr ⟨k, hk, rfl, hb⟩, rfl, input, b₂,
    ht, hb₂, rfl⟩

theorem isOutput_of_inverter (h : Revisit e s t e' t') {π : Pin} (hπ : π ∈ Pin.ofModule s.module)
    {input : String} (ht : t.inverterInput? π.portBit = some input) :
    e.signatures.isOutput π.cell π.port = true :=
  ((h.directed _ (Pin.mem_ofModule.mp hπ).1).inverter _ _ _ ht).1

theorem inverters_unique (h : Revisit e s t e' t') : ∀ x ∈ invertersIn t s.module,
    ∀ y ∈ invertersIn t s.module, x.output = y.output → x.input = y.input := by
  intro x hx y hy he
  obtain ⟨π, hπ, hnet, input, b₂, ht, hb₂, hin⟩ := exists_pin_of_inverter hx
  obtain ⟨ρ, hρ, hnet', input', b₂', ht', hb₂', hin'⟩ := exists_pin_of_inverter hy
  have hpins : π = ρ := h.single.pin_eq hπ hρ (h.isOutput_of_inverter hπ ht)
    (h.isOutput_of_inverter hρ ht') (hnet.trans (he.trans hnet'.symm))
  subst hpins
  rw [ht] at ht'
  obtain rfl := Option.some.inj ht'
  rw [hb₂] at hb₂'
  rw [hin, hin', Option.some.inj hb₂']

theorem inverters_unique_revisit (h : Revisit e s t e' t') :
    ∀ x ∈ invertersIn t' (s.complete e).module, ∀ y ∈ invertersIn t' (s.complete e).module,
      x.output = y.output → x.input = y.input := by
  intro x hx y hy he
  obtain ⟨x₀, hx₀, rfl⟩ := h.mem_inverters_revisit.mp hx
  obtain ⟨y₀, hy₀, rfl⟩ := h.mem_inverters_revisit.mp hy
  have hout := h.netOf_inj (isNet_inverter h.well hx₀).1 (isNet_inverter h.well hy₀).1 he
  dsimp only
  rw [h.inverters_unique x₀ hx₀ y₀ hy₀ hout]

/-! ## Buffered nets -/

theorem not_placed_of_shown (h : Revisit e s t e' t') (hb : net ∈ (shown t s.module).buffered) :
    net ∉ (s.inserted e).placed.map Prod.fst := by
  intro hp
  have hwants := wanting_of_placed h.fresh hp
  rw [h.before.clocks] at hwants
  exact hwants.2 (Clocks.buffered_subset_settle _ _ hb)

theorem shown_of_buffered (h : Revisit e s t e' t') (hb : net ∈ (shown t s.module).buffered) :
    netOf (s.complete e).module net ∈ (shown t' (s.complete e).module).buffered := by
  have hfree := h.not_placed_of_shown hb
  obtain ⟨k, hk, port, j, b, hbit, ht, rfl⟩ := mem_shown_buffered.mp hb
  obtain ⟨b', hb', hhanded⟩ := pin_after h.fresh h.well h.before.aliases hk hbit
  refine mem_shown_buffered.mpr ⟨k, h.lt_of_old hk, port, j, b', hb', ?_, ?_⟩
  · rw [h.type_old hk]
    exact (h.retold _ (Module.cell_mem hk)).buffered port j ht
  · rcases hhanded with he | ⟨hp, -⟩
    · rw [h.netOf_root, he]
    · exact absurd hp hfree

/-- A net on which a cell has been placed is buffered by that cell. -/
theorem shown_of_placed (h : Revisit e s t e' t')
    (hp : net ∈ (s.inserted e).placed.map Prod.fst) :
    netOf (s.complete e).module net ∈ (shown t' (s.complete e).module).buffered := by
  obtain ⟨k, -, hk, id, i, spec, hdrive, hhead, htype, hport⟩ :=
    pin_of_placed h.fresh h.before.aliases h.outputs.keeps hp
  have hb : portBit? ((s.complete e).module.cell k) spec.output 0 = some net := by
    unfold portBit?
    rw [hport]
    rfl
  refine mem_shown_buffered.mpr ⟨k, hk, spec.output, 0, net, hb, ?_, rfl⟩
  rw [htype]
  exact h.heads id i spec hdrive hhead

/-- A net of the start that is buffered in the end was so, has been given a cell, or is driven by
an output of a cell that is none of an inverter. -/
theorem buffered_cases (h : Revisit e s t e' t') (hnet : IsNet s.module net)
    (hb : netOf (s.complete e).module net ∈ (shown t' (s.complete e).module).buffered) :
    net ∈ (shown t s.module).buffered ∨ net ∈ (s.inserted e).placed.map Prod.fst ∨
      ∃ π ∈ Pin.ofModule s.module, e.signatures.isOutput π.cell π.port = true ∧
        t.inverterInput? π.portBit = none ∧ netOf s.module π.bit = net := by
  obtain ⟨k, hk, port, j, b', hb', ht, he⟩ := mem_shown_buffered.mp hb
  by_cases hold : k < s.module.cells.length
  · have hc := Module.cell_mem hold
    rw [h.type_old hold] at ht
    obtain ⟨b, hbit, hhanded⟩ := pin_before h.fresh h.well h.before.aliases hold hb'
    rcases hhanded with hsame | ⟨-, f, hfeed, hsame⟩
    · have hb₀ : netOf s.module b = net := by
        refine h.netOf_inj (isNet_netOf h.well (owns_portBit? h.well hold hbit)) hnet ?_
        rw [h.netOf_root, he, hsame]
      rcases (h.retold _ hc).fresh port j ht with hwas | ⟨hout, hinv⟩
      · exact .inl (mem_shown_buffered.mpr ⟨k, hold, port, j, b, hbit, hwas, hb₀.symm⟩)
      · refine .inr (.inr ⟨⟨s.module.cell k, port, j, b⟩, ?_, hout, hinv, hb₀⟩)
        exact Pin.mem_ofModule_iff.mpr ⟨k, hold, rfl, hbit⟩
    · rw [hsame] at he
      exact absurd he (netOf_complete_feed h.fresh h.well h.before.aliases hnet.owns hfeed 0)
  · obtain ⟨spec, -, -, hpins⟩ := pin_of_inserted h.fresh h.well h.before.aliases h.outputs
      (Nat.le_of_not_lt hold) hk
    rcases hpins port j b' hb' with hp | ⟨f, hfeed, rfl⟩
    · rw [h.netOf_inj hnet (h.isNet_placed hp) he]
      exact .inr (.inl hp)
    · exact absurd he (netOf_complete_feed h.fresh h.well h.before.aliases hnet.owns hfeed 0)

/-- The output of an inverter is not buffered by itself if it was not. -/
theorem output_not_shown (h : Revisit e s t e' t') (hi : i ∈ invertersIn t s.module)
    (hb : i.output ∉ (shown t s.module).buffered) :
    netOf (s.complete e).module i.output ∉ (shown t' (s.complete e).module).buffered := by
  intro hb'
  rcases h.buffered_cases (isNet_inverter h.well hi).1 hb' with hold | hp | ⟨ρ, hρ, hout, hnone, he⟩
  · exact hb hold
  · exact h.output_not_placed hi hp
  · -- the net would be driven by the inverter and by another output
    obtain ⟨π, hπ, hnet, input, b₂, ht, -⟩ := exists_pin_of_inverter hi
    have hpins := h.single.pin_eq hπ hρ (h.isOutput_of_inverter hπ ht) hout (hnet.trans he.symm)
    rw [hpins, hnone] at ht
    cases ht

/-! ## What inverters hand on -/

theorem isNet_demanded (h : Revisit e s t e' t')
    (hd : Clocks.Demanded (invertersIn t s.module) (shown t s.module) net) :
    IsNet s.module net := by
  cases hd with
  | sink hs => exact isNet_sinks h.well hs
  | inverter hi => exact (isNet_inverter h.well hi).2

theorem demanded_revisit (h : Revisit e s t e' t') :
    Clocks.Demanded (invertersIn t' (s.complete e).module) (shown t' (s.complete e).module) net ↔
      ∃ x, Clocks.Demanded (invertersIn t s.module) (shown t s.module) x ∧
        net = netOf (s.complete e).module x := by
  constructor
  · intro hd
    induction hd with
    | sink hs =>
      obtain ⟨x, hx, rfl⟩ := h.mem_sinks_revisit.mp hs
      exact ⟨x, .sink hx, rfl⟩
    | inverter hi _ hb ih =>
      obtain ⟨x, hx, rfl⟩ := h.mem_inverters_revisit.mp hi
      obtain ⟨y, hy, he⟩ := ih
      have hout := h.netOf_inj (isNet_inverter h.well hx).1 (h.isNet_demanded hy) he
      rw [← hout] at hy
      refine ⟨x.input, .inverter hx hy ?_, rfl⟩
      intro hold
      exact hb (h.shown_of_buffered hold)
  · intro hex
    obtain ⟨x, hd, rfl⟩ := hex
    induction hd with
    | sink hs => exact .sink (h.mem_sinks_revisit.mpr ⟨_, hs, rfl⟩)
    | @inverter x hx _ hb ih =>
      have hi := h.mem_inverters_revisit.mpr ⟨x, hx, rfl⟩
      exact .inverter hi ih (h.output_not_shown hx hb)

theorem supplied_revisit (h : Revisit e s t e' t')
    (hs : Clocks.Supplied (invertersIn t s.module) (shown t s.module) net) :
    Clocks.Supplied (invertersIn t' (s.complete e).module) (shown t' (s.complete e).module)
      (netOf (s.complete e).module net) := by
  induction hs with
  | buffered hb => exact .buffered (h.shown_of_buffered hb)
  | @inverter x hx _ ih => exact .inverter (h.mem_inverters_revisit.mpr ⟨x, hx, rfl⟩) ih
  | @demand x hx hd =>
    exact .demand (h.mem_inverters_revisit.mpr ⟨x, hx, rfl⟩) (h.demanded_revisit.mpr ⟨_, hd, rfl⟩)

theorem wanting_before (h : Revisit e s t e' t') : e.clocks.Wanting net ↔
    Clocks.Demanded (invertersIn t s.module) (shown t s.module) net ∧
      ¬ Clocks.Supplied (invertersIn t s.module) (shown t s.module) net := by
  rw [h.before.clocks]
  exact Clocks.wanting_settle h.inverters_unique

theorem wanting_after (h : Revisit e s t e' t') : e'.clocks.Wanting net ↔
    Clocks.Demanded (invertersIn t' (s.complete e).module) (shown t' (s.complete e).module) net ∧
      ¬ Clocks.Supplied (invertersIn t' (s.complete e).module)
        (shown t' (s.complete e).module) net := by
  rw [h.after.clocks]
  exact Clocks.wanting_settle h.inverters_unique_revisit

/-- A net that wants a clock in the end wanted one at the start and has been given no cell. -/
theorem wanting_revisit (h : Revisit e s t e' t') (hw : e'.clocks.Wanting net) :
    ∃ x, IsNet s.module x ∧ net = netOf (s.complete e).module x ∧ e.clocks.Wanting x ∧
      x ∉ (s.inserted e).placed.map Prod.fst := by
  obtain ⟨hd, hs⟩ := h.wanting_after.mp hw
  obtain ⟨x, hx, rfl⟩ := h.demanded_revisit.mp hd
  refine ⟨x, h.isNet_demanded hx, rfl, h.wanting_before.mpr ⟨hx, ?_⟩, ?_⟩
  · intro hsup
    exact hs (h.supplied_revisit hsup)
  · intro hp
    exact hs (.buffered (h.shown_of_placed hp))

theorem wanting_of_input (h : Revisit e s t e' t') {id : WireId} {i : Nat}
    (hin : (s.module.wire id).isInput = true) (hi : i < (s.module.wire id).width)
    (hw : e.clocks.Wanting (netOf s.module (.wire id i)))
    (hp : netOf s.module (.wire id i) ∉ (s.inserted e).placed.map Prod.fst) :
    e'.clocks.Wanting (netOf (s.complete e).module (.wire id i)) := by
  obtain ⟨hd, hs⟩ := h.wanting_before.mp hw
  have hnet : IsNet s.module (netOf s.module (.wire id i)) :=
    isNet_netOf h.well (Module.lt_of_place hi)
  rw [← h.netOf_root]
  refine h.wanting_after.mpr ⟨h.demanded_revisit.mpr ⟨_, hd, rfl⟩, ?_⟩
  intro hsup
  -- the port is the only driver of its net, so no inverter and no new output drives it
  have hinverter : ∀ x ∈ invertersIn t' (s.complete e).module,
      x.output ≠ netOf (s.complete e).module (netOf s.module (.wire id i)) := by
    intro x hx he
    obtain ⟨y, hy, rfl⟩ := h.mem_inverters_revisit.mp hx
    have hout := h.netOf_inj (isNet_inverter h.well hy).1 hnet he
    obtain ⟨π, hπ, hπnet, input, b₂, ht, -⟩ := exists_pin_of_inverter hy
    exact h.single.pin_ne_input hπ (h.isOutput_of_inverter hπ ht) hin hi (hπnet.trans hout)
  generalize he : netOf (s.complete e).module (netOf s.module (.wire id i)) = net at hsup
  cases hsup with
  | buffered hb =>
    rw [← he] at hb
    rcases h.buffered_cases hnet hb with hold | hplaced | ⟨π, hπ, hout, -, hπnet⟩
    · exact hs (.buffered hold)
    · exact hp hplaced
    · exact h.single.pin_ne_input hπ hout hin hi hπnet
  | inverter hx _ => exact hinverter _ hx he.symm
  | demand hx _ => exact hinverter _ hx he.symm

end Revisit

end ClockNet.Buffering

import ClockNet.Checked.Import
import ClockNet.Checked.Reading
import ClockNet.Checked.Run

/-! # No assertion fails

A design that is at hand has been read from netlist text or from the tree of a JSON netlist and has
gone through any number of runs (`Reached`), on modules that carry the maps of their names and with
every assertion checked. Reading leaves it well formed with its ports in order, and so does every
run, and the maps have the names all the time: reading, buffering and writing end as they do without
maps and assertions (`reached_safe`). -/

namespace ClockNet

open Checked (Agrees)

/-- A design read from text or from a tree, after any number of runs. -/
inductive Reached : Registries → Prop where
  | text {text : String} {d : Registries} (h : Rtlil.Checked.parse text = .ok d) : Reached d
  | tree {j : Json} {d : Registries} (h : NetlistJson.Checked.importDesign j = .ok d) : Reached d
  | run {o : Buffering.Options} {d : Registries} {p : Buffering.Checked.Progress}
      (hd : Reached d) (h : Buffering.Checked.run o d = .ok p) : Reached p.registries

/-- Signals refer to bits of wires that are there, connections fit, the maps find each name where it
stands and no other one, and the port list has the port wires, each once and numbered from 1 on. -/
structure Registry.Intact (r : Registry) : Prop where
  cell_bits : ∀ c ∈ r.module.cells, ∀ e ∈ c.ports.entries, ∀ id offset, .wire id offset ∈ e.2 →
    id < r.module.wires.length ∧ offset < (r.module.wire id).width
  connection_bits : ∀ c ∈ r.module.connections, ∀ id offset, .wire id offset ∈ c.1 ++ c.2 →
    id < r.module.wires.length ∧ offset < (r.module.wire id).width
  connection_widths : ∀ c ∈ r.module.connections, c.1.length = c.2.length
  wires_nodup : (r.module.wires.map (·.name)).Nodup
  cells_nodup : (r.module.cells.map (·.name)).Nodup
  findWire_iff : ∀ name id,
    r.findWire name = some id ↔ id < r.module.wires.length ∧ (r.module.wire id).name = name
  findCell_iff : ∀ name id,
    r.findCell name = some id ↔ id < r.module.cells.length ∧ (r.module.cell id).name = name
  ports_nodup : r.module.ports.Nodup
  mem_ports_iff : ∀ id, id ∈ r.module.ports ↔
    id < r.module.wires.length ∧ (r.module.wire id).isPort = true
  positions : ∀ i (h : i < r.module.ports.length),
    (r.module.wire r.module.ports[i]).position = i + 1

theorem Registry.Registers.intact {r : Registry} {m : Module} (hr : r.Registers m)
    (h : m.WellFormed) (hp : m.PortsNumbered) : r.Intact := by
  obtain ⟨rfl, hmaps⟩ := hr
  exact {
    cell_bits := fun c hc e he id offset hb =>
      have hoffset : offset < (r.module.wire id).width := h.cell_bits c hc e he _ hb
      ⟨Module.lt_of_place hoffset, hoffset⟩
    connection_bits := fun c hc id offset hb =>
      have hoffset : offset < (r.module.wire id).width := h.connection_bits c hc _ hb
      ⟨Module.lt_of_place hoffset, hoffset⟩
    connection_widths := h.connection_widths
    wires_nodup := h.wires_nodup
    cells_nodup := h.cells_nodup
    findWire_iff := fun name id => by
      rw [hmaps.findWire_eq]
      exact ⟨Module.name_of_findWire, fun ⟨hid, hname⟩ =>
        hname ▸ Module.findWire_name h.wires_nodup hid⟩
    findCell_iff := fun name id => by
      rw [hmaps.findCell_eq]
      exact ⟨Module.name_of_findCell, fun ⟨hid, hname⟩ =>
        hname ▸ Module.findCell_name h.cells_nodup hid⟩
    ports_nodup := (Module.portsNumbered_iff.mp hp).1
    mem_ports_iff := fun id =>
      hp.mem.trans ⟨fun hport => ⟨Module.lt_of_isPort hport, hport⟩, And.right⟩
    positions := fun i hi => by
      rw [hp.position (List.getElem_mem hi),
        (Module.portsNumbered_iff.mp hp).1.idxOf_getElem] }

/-- Whatever is at hand is registered by its names, well formed and with its ports in order. -/
theorem Reached.registers {d : Registries} (h : Reached d) :
    d.Registers d.design ∧ d.design.WellFormed ∧ d.design.PortsNumbered := by
  -- a program that agrees with one that leaves such designs leaves one
  have hresult : ∀ {d : Registries} {p : Design}, d.Registers p → p.WellFormed ∧ p.PortsNumbered →
      d.Registers d.design ∧ d.design.WellFormed ∧ d.design.PortsNumbered := by
    rintro d p h hp
    obtain rfl := h.design_eq
    exact ⟨h, hp⟩
  induction h with
  | @text text d h =>
    have hagrees := Rtlil.Checked.parse_agrees text
    rw [h] at hagrees
    obtain ⟨p, hp, hd⟩ := hagrees.of_ok
    exact hresult hd (Rtlil.wellFormed_parse hp)
  | @tree j d h =>
    have hagrees := NetlistJson.Checked.importDesign_agrees j
    rw [h] at hagrees
    obtain ⟨p, hp, hd⟩ := hagrees.of_ok
    exact hresult hd (NetlistJson.wellFormed_importDesign hp)
  | @run o d c hd h ih =>
    obtain ⟨hregisters, hwell, hports⟩ := ih
    have hagrees := Buffering.Checked.run_agrees hregisters o hwell hports
    rw [h] at hagrees
    obtain ⟨p, hp, hc⟩ := hagrees.of_ok
    exact hresult hc.registries (Buffering.wellFormed_run hwell hports hp)

/-- With all assertions checked, reading any text or tree ends as it does without. The modules of a
design that has been reached stand under their names, which are distinct, and are intact; any run
from it and both ways of writing it end, with all assertions checked, as they do without. -/
theorem reached_safe :
    (∀ text, Agrees Registries.Registers (Rtlil.Checked.parse text) (Rtlil.parse text)) ∧
    (∀ j, Agrees Registries.Registers (NetlistJson.Checked.importDesign j)
      (NetlistJson.importDesign j)) ∧
    ∀ d, Reached d →
      (d.table.entries.map Prod.fst).Nodup ∧
      (∀ e ∈ d.table.entries, e.2.module.name = e.1 ∧ e.2.Intact) ∧
      (∀ o, Agrees Buffering.Checked.Progress.Registers (Buffering.Checked.run o d)
        (Buffering.run o d.design)) ∧
      Rtlil.Checked.print (ε := Empty) d.design = .ok (Rtlil.print d.design) ∧
      NetlistJson.Checked.print (ε := Empty) d.design = .ok (NetlistJson.print d.design) := by
  refine ⟨Rtlil.Checked.parse_agrees, NetlistJson.Checked.importDesign_agrees, fun d h => ?_⟩
  obtain ⟨hregisters, hd, hp⟩ := h.registers
  refine ⟨d.table.nodup, fun e he => ?_, fun o => Buffering.Checked.run_agrees hregisters o hd hp,
    Rtlil.Checked.print_ok hd, NetlistJson.Checked.print_ok hd hp⟩
  obtain ⟨hname, hmaps⟩ := hregisters.entries e he
  have hmem : e.2.module ∈ d.design.modules := List.mem_map_of_mem (f := (·.2.module)) he
  exact ⟨hname, Registry.Registers.intact ⟨rfl, hmaps⟩ (hd.modules _ hmem) (hp _ hmem)⟩

/-- A register, the type of which is a black box, on a clock that comes in at the top. -/
def clockText : String := "attribute \\blackbox 1 module \\FF attribute \\clkbuf_sink 1 " ++
  "wire input 1 \\C end attribute \\top 1 module \\top wire input 1 \\clk " ++
  "cell \\FF \\ff connect \\C \\clk end end"

def clockDesign : Design := ⟨[
  { name := "FF"
    attributes := SortedTable.empty.insert "blackbox" (.ofInt 1)
    wires := [{ name := "C", width := 1, isInput := true, position := 1
                attributes := SortedTable.empty.insert "clkbuf_sink" (.ofInt 1) }]
    ports := [0] },
  { name := "top"
    attributes := SortedTable.empty.insert "top" (.ofInt 1)
    wires := [{ name := "clk", width := 1, isInput := true, position := 1 }]
    cells := [{ name := "ff", type := "FF", ports := OrderedTable.empty.set "C" [.wire 0 0] }]
    ports := [0] }]⟩

section
open Rtlil

theorem parse_clockText : Rtlil.parse clockText = .ok clockDesign := by
  have htokens : tokens clockText.toList = .ok ([.word "attribute", .name "blackbox", .int 1,
      .word "module", .name "FF", .word "attribute", .name "clkbuf_sink", .int 1, .word "wire",
      .word "input", .int 1, .name "C", .word "end", .word "attribute", .name "top", .int 1,
      .word "module", .name "top", .word "wire", .word "input", .int 1, .name "clk", .word "cell",
      .name "FF", .name "ff", .word "connect", .name "C", .name "clk", .word "end",
      .word "end"].map (⟨·, 1⟩)) := by cbv
  have hname : ∀ m : Module, m.renumberPorts.name = m.name := fun _ => rfl
  rw [Rtlil.parse, htokens]
  change designBody 1 {} .empty _ = _
  simp [designBody, Rtlil.module, moduleBody, wire, wireShape, cell, cellBody, portConnection,
    signal, signalWithin, chunk, wireSlice, binding, identifier, value, natural, integer,
    Text.andThen_eq_bind, bind, Except.bind, Module.addWire?, Module.addWire, Module.findWire,
    Module.wire, Module.addCell, Module.findCell, Design.find?, Design.add, hname]
  cbv

end

/-- The clock gets a buffer, and the design with the buffer in it, which is found in the map of its
cells, is as safe as the one read. -/
theorem reached_safe_clock : ∃ (d : Registries) (p : Buffering.Checked.Progress) (r : Registry),
    Rtlil.Checked.parse clockText = .ok d ∧ d.design = clockDesign ∧
    Buffering.Checked.run { buffer := some ⟨"BUFG", "O", "I"⟩ } d = .ok p ∧
    p.stats.buffers = 1 ∧ p.registries.find? "top" = some r ∧
    r.findCell "$clkbufmap$1" = some 1 ∧ Reached p.registries ∧
    (∀ e ∈ p.registries.table.entries, e.2.module.name = e.1 ∧ e.2.Intact) ∧
    (∀ o, Agrees Buffering.Checked.Progress.Registers (Buffering.Checked.run o p.registries)
      (Buffering.run o p.registries.design)) ∧
    Rtlil.Checked.print (ε := Empty) p.registries.design =
      .ok (Rtlil.print p.registries.design) ∧
    NetlistJson.Checked.print (ε := Empty) p.registries.design =
      .ok (NetlistJson.print p.registries.design) := by
  let o : Buffering.Options := { buffer := some ⟨"BUFG", "O", "I"⟩ }
  have hparsed := reached_safe.1 clockText
  rw [parse_clockText] at hparsed
  obtain ⟨d, hparse, hd⟩ := Checked.agrees_ok.mp hparsed
  obtain ⟨q, hplain⟩ := Buffering.run_total (o := o) (d := clockDesign) (.inl rfl)
  have hbuffered := (reached_safe.2.2 d (.text hparse)).2.2.1 o
  rw [hd.design_eq, hplain] at hbuffered
  obtain ⟨p, hrun, hp⟩ := Checked.agrees_ok.mp hbuffered
  have hreached : Reached p.registries := .run (.text hparse) hrun
  obtain ⟨-, hintact, hruns, hprints⟩ := reached_safe.2.2 p.registries hreached
  -- what stands in the design, the maps have
  have houtcome : ((Buffering.run o clockDesign).toOption.map fun q =>
      (q.stats.buffers, (q.design.find? "top").bind (·.findCell "$clkbufmap$1"))) =
        some (1, some 1) := by cbv
  rw [hplain] at houtcome
  obtain ⟨hbuffers, hcell⟩ := Prod.mk.inj (Option.some.inj houtcome)
  rw [hp.registries.find?_eq] at hcell
  cases hr : p.registries.find? "top" with
  | none =>
    rw [hr] at hcell
    cases hcell
  | some r =>
    rw [hr] at hcell
    refine ⟨d, p, r, hparse, hd.design_eq, hrun, ?_, hr, ?_, hreached, hintact, hruns, hprints⟩
    · rw [hp.stats_eq]
      exact hbuffers
    · rw [(hp.registries.registry hr).findCell]
      exact hcell

end ClockNet

import ClockNet.Proofs.Connectivity
import ClockNet.Proofs.Result

/-! # Port identity

Modules address each other by port names, so a run must leave the interface of every module as it
found it, whatever it does behind the ports. A port that is replaced hands all that it is over to
its copy, and renumbering puts the copy in its place (`ports_complete`); modules that the run does
not enter are not touched. -/

namespace ClockNet.Buffering

open Insertion

/-- What other modules see of a module: its name, and its ports in order, each with its name,
shape, direction, position and attributes. -/
def interfaceOf (m : Module) : String × List Wire := (m.name, m.ports.map m.wire)

theorem ofDesign_congr {d d' : Design}
    (h : d'.modules.map interfaceOf = d.modules.map interfaceOf) :
    Signatures.ofDesign d' = .ofDesign d := by
  have hpart : ∀ d : Design, Signatures.ofDesign d = ⟨(d.modules.map interfaceOf).map fun i =>
      (i.1, i.2.filterMap fun w => w.direction.map fun dir => (w.name, dir))⟩ := by
    intro d
    unfold Signatures.ofDesign
    rw [List.map_map]
    refine congrArg Signatures.mk (List.map_congr_left ?_)
    intro m _
    show (m.name, Signatures.ofModule m) =
      (m.name, (m.ports.map m.wire).filterMap fun w => w.direction.map fun dir => (w.name, dir))
    rw [List.filterMap_map]
    rfl
  rw [hpart, hpart, h]

section
variable {o : Options} {d : Design}

theorem interfaceOf_resultOf (hd : d.NamesUnique) {m : Module} (hm : m ∈ d.modules)
    (hp : m.PortsNumbered) : interfaceOf (resultOf o d m) = interfaceOf m := by
  have hs : (entryIn o d (progressBefore o d m.name) m).Fresh := fresh_entryOf hd hm _
  unfold interfaceOf
  rw [(resultOf_rest hd hm).1]
  refine congrArg (Prod.mk m.name) ?_
  by_cases hv : m.isBlackbox = false ∧ m.name ∈ moduleOrder d o.selection
  · rw [resultOf_visited hv.1 hv.2]
    exact ports_complete (e := sceneOf o d m) hs hp
  · have hkeep : resultOf o d m = m := if_neg hv
    rw [hkeep]

/-- A run changes no interface and so no signature, however many ports it replaces. The port lists
are in order before, as they are after reading. -/
theorem interfaces_preserved (hd : d.NamesUnique) (hp : d.PortsNumbered) {p : Progress}
    (h : run o d = .ok p) : p.design.modules.map interfaceOf = d.modules.map interfaceOf ∧
      Signatures.ofDesign p.design = .ofDesign d := by
  obtain ⟨-, hdesign, -⟩ := run_ok h
  have hend : p.design = endOf o d := hdesign
  have hsame : p.design.modules.map interfaceOf = d.modules.map interfaceOf := by
    rw [hend, modules_endOf hd, List.map_map]
    refine List.map_congr_left ?_
    intro m hm
    exact interfaceOf_resultOf hd hm (hp m hm)
  exact ⟨hsame, ofDesign_congr hsame⟩

end

/-- Two clock inputs around an output in the port list, with registers on both of them. -/
def twoClocks : Module :=
  { name := "top"
    attributes := marked Attribute.top
    wires := [{ name := "q", width := 1, isOutput := true, position := 2 },
              { name := "b", width := 2, offset := -1, upto := true, isInput := true
                position := 3 },
              { name := "a", width := 1, signed := true, isInput := true, position := 1 }]
    cells := [{ name := "fa", type := "DFF", ports := OrderedTable.empty.set "C" [.wire 2 0] },
              { name := "fb", type := "DFF", ports := OrderedTable.empty.set "C" [.wire 1 1] }]
    ports := [2, 0, 1] }

/-- Both inputs are replaced by wires further behind, and the list of ports is what it was. -/
theorem interfaces_preserved_twoClocks : ∃ p,
    run bufferAndPad ⟨[registerType, twoClocks]⟩ = .ok p ∧ p.stats.renamedPorts = 2 ∧
      p.design.modules.map (·.ports) = [[0], [8, 0, 5]] ∧
      p.design.modules.map interfaceOf = [registerType, twoClocks].map interfaceOf ∧
      Signatures.ofDesign p.design = .ofDesign ⟨[registerType, twoClocks]⟩ := by
  obtain ⟨p, hrun⟩ := run_total (o := bufferAndPad) (d := ⟨[registerType, twoClocks]⟩) (.inl rfl)
  have hnames : Design.NamesUnique ⟨[registerType, twoClocks]⟩ :=
    Design.WellFormed.namesUnique (by decide)
  obtain ⟨hsame, hsignatures⟩ := interfaces_preserved hnames (by decide) hrun
  have hcount : ((run bufferAndPad ⟨[registerType, twoClocks]⟩).toOption.map fun p =>
      (p.stats.renamedPorts, p.design.modules.map (·.ports))) = some (2, [[0], [8, 0, 5]]) := by cbv
  rw [hrun] at hcount
  obtain ⟨hrenamed, hports⟩ := Prod.mk.inj (Option.some.inj hcount)
  exact ⟨p, hrun, hrenamed, hports, hsame, hsignatures⟩

end ClockNet.Buffering

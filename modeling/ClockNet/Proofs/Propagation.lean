import ClockNet.Proofs.Clocks
import ClockNet.Proofs.Tables
import Mathlib.Data.List.Forall2

/-! # Handing on until nothing changes

Inverters are gone through again and again until one whole sweep notes no change (`propagate`).
Such a sweep comes (`propagate_eq_settle`), and what it leaves is closed under the inverters and
has a reason for each of the nets (`HandedOn`). The rules that give these reasons do not see in
which order the inverters stand, and the inverters of a module are the same for any order of its
cells and their ports (`Reordered.alike`). So where no net is the output of inverters with two
inputs, neither order has an effect on which nets are buffered and which want a clock
(`propagate_exact`). -/

namespace ClockNet.Buffering

namespace Clocks
variable {is is' : List Inverter} {c c' : Clocks} {net : Bit}

/-! ## The loop ends -/

/-- What is noted is whether the inverter changed something. -/
theorem passNoting_eq (changed : Bool) (c : Clocks) (i : Inverter) :
    passNoting (changed, c) i =
      (changed || decide (c.passInverter i ≠ c), c.passInverter i) := by
  unfold passNoting passInverter
  by_cases hb : i.output ∈ c.buffered
  · simp [hb]
  · have hnew : ∀ sinks, (⟨sinks, c.buffered.insert i.output⟩ : Clocks) ≠ c := by
      intro sinks he
      have hbuffered : c.buffered.insert i.output = c.buffered := congrArg Clocks.buffered he
      exact hb (hbuffered ▸ List.mem_insert_self)
    by_cases hi : i.input ∈ c.buffered
    · simp only [hi, hb, hnew, List.mem_insert_self, not_true_eq_false, not_false_eq_true,
        and_self, and_false, if_true, if_false, ne_eq, decide_true, Bool.or_true]
    · by_cases ho : i.output ∈ c.sinks
      · simp only [hi, ho, hb, hnew, not_false_eq_true, false_and, and_self, if_true, if_false,
          ne_eq, decide_true, Bool.or_true]
      · simp [hi, ho]

/-- A sweep that notes no change made none. -/
theorem foldl_passNoting (is : List Inverter) (changed : Bool) (c : Clocks) :
    (is.foldl passNoting (changed, c)).2 = sweep is c ∧
      ((is.foldl passNoting (changed, c)).1 = false ↔
        changed = false ∧ ∀ i ∈ is, c.passInverter i = c) := by
  unfold sweep
  induction is generalizing changed c with
  | nil => simp
  | cons i rest ih =>
    rw [List.foldl_cons, List.foldl_cons, passNoting_eq]
    refine ⟨(ih _ _).1, (ih _ _).2.trans ?_⟩
    by_cases he : c.passInverter i = c
    · simp [he]
    · simp [he]

theorem propagate_of_stable (h : ∀ i ∈ is, c.passInverter i = c) : c.propagate is = some c := by
  obtain ⟨hsweep, hnoted⟩ := foldl_passNoting is false c
  have hstate : is.foldl passNoting (false, c) = (false, c) :=
    Prod.ext (hnoted.mpr ⟨rfl, h⟩) (hsweep.trans (sweep_of_stable h))
  rw [propagate, hstate]

theorem propagate_sweep (is : List Inverter) (c : Clocks) :
    (sweep is c).propagate is = c.propagate is := by
  obtain ⟨hsweep, hnoted⟩ := foldl_passNoting is false c
  -- a sweep that notes a change is the first round of the loop, any other changes nothing
  cases hch : (is.foldl passNoting (false, c)).1 with
  | true =>
    have hstate : is.foldl passNoting (false, c) = (true, sweep is c) := Prod.ext hch hsweep
    conv => rhs; rw [propagate, hstate]
  | false =>
    rw [sweep_of_stable (hnoted.mp hch).2]

/-- The loop ends, in the state that as many sweeps as there are inverters lead to. -/
theorem propagate_eq_settle (is : List Inverter) (c : Clocks) :
    c.propagate is = some (c.settle is) := by
  have hrepeat : ∀ n : Nat, (n.repeat (sweep is) c).propagate is = c.propagate is := by
    intro n
    induction n with
    | zero => rfl
    | succ n ih => exact (propagate_sweep is _).trans ih
  rw [← hrepeat is.length]
  exact propagate_of_stable fun i hi => passInverter_settle c hi

/-! ## What it leaves -/

/-- What was marked stays so, inverters have nothing left to hand on, and the rules give a reason
for each net that is marked. -/
structure HandedOn (is : List Inverter) (c c' : Clocks) : Prop where
  sinks_kept : c.sinks ⊆ c'.sinks
  buffered_kept : c.buffered ⊆ c'.buffered
  input_buffered : ∀ i ∈ is, i.input ∈ c'.buffered → i.output ∈ c'.buffered
  output_wanted : ∀ i ∈ is, i.output ∈ c'.sinks → i.output ∈ c'.buffered
  demanded : ∀ net ∈ c'.sinks, Demanded is c net
  supplied : ∀ net ∈ c'.buffered, Supplied is c net

theorem handedOn_settle (is : List Inverter) (c : Clocks) : HandedOn is c (c.settle is) where
  sinks_kept := sinks_subset_settle is c
  buffered_kept := buffered_subset_settle is c
  input_buffered _ hi h := closed_settle c hi (.inl h)
  output_wanted _ hi h := closed_settle c hi (.inr h)
  demanded := (settle_sound is c).1
  supplied := (settle_sound is c).2

/-! ## The order does not matter -/

/-- Inverters with the same output have the same input. -/
def OneInput (is : List Inverter) : Prop :=
  ∀ i ∈ is, ∀ j ∈ is, i.output = j.output → i.input = j.input

instance (is : List Inverter) : Decidable (OneInput is) :=
  inferInstanceAs (Decidable (∀ i ∈ is, ∀ j ∈ is, i.output = j.output → i.input = j.input))

/-- The same nets are buffered, and the same ones want a clock. -/
def SameNets (c c' : Clocks) : Prop :=
  ∀ net, (net ∈ c.buffered ↔ net ∈ c'.buffered) ∧ (c.Wanting net ↔ c'.Wanting net)

/-- The same inverters, and the same nets that are marked, in whatever order. -/
structure Alike (is : List Inverter) (c : Clocks) (is' : List Inverter) (c' : Clocks) : Prop where
  inverters : ∀ i, i ∈ is ↔ i ∈ is'
  sinks : ∀ net, net ∈ c.sinks ↔ net ∈ c'.sinks
  buffered : ∀ net, net ∈ c.buffered ↔ net ∈ c'.buffered

namespace Alike

theorem symm (h : Alike is c is' c') : Alike is' c' is c where
  inverters i := (h.inverters i).symm
  sinks net := (h.sinks net).symm
  buffered net := (h.buffered net).symm

theorem oneInput (h : Alike is c is' c') (hu : OneInput is) : OneInput is' := by
  intro i hi j hj he
  exact hu i ((h.inverters i).mpr hi) j ((h.inverters j).mpr hj) he

theorem demanded (h : Alike is c is' c') (hd : Demanded is c net) : Demanded is' c' net := by
  induction hd with
  | sink hs => exact .sink ((h.sinks _).mp hs)
  | inverter hi _ hb ih =>
    exact .inverter ((h.inverters _).mp hi) ih fun hb' => hb ((h.buffered _).mpr hb')

theorem supplied (h : Alike is c is' c') (hs : Supplied is c net) : Supplied is' c' net := by
  induction hs with
  | buffered hb => exact .buffered ((h.buffered _).mp hb)
  | inverter hi _ ih => exact .inverter ((h.inverters _).mp hi) ih
  | demand hi hd => exact .demand ((h.inverters _).mp hi) (h.demanded hd)

theorem sameNets (h : Alike is c is' c') (hu : OneInput is) :
    SameNets (c.settle is) (c'.settle is') := by
  intro net
  have hsupplied : Supplied is c net ↔ Supplied is' c' net := ⟨h.supplied, h.symm.supplied⟩
  have hdemanded : Demanded is c net ↔ Demanded is' c' net := ⟨h.demanded, h.symm.demanded⟩
  rw [mem_buffered_settle hu, mem_buffered_settle (h.oneInput hu), wanting_settle hu,
    wanting_settle (h.oneInput hu), hsupplied, hdemanded]
  exact ⟨Iff.rfl, Iff.rfl⟩

end Alike

end Clocks

/-! ## Modules in another order -/

/-- A cell of the same type, with the same signals at its ports, in whatever order. -/
def SamePorts (c c' : Cell) : Prop := c.type = c'.type ∧ c.ports.entries.Perm c'.ports.entries

/-- The cells of one module are those of the other one, in another order and each with its ports
in another order. -/
def Reordered (m m' : Module) : Prop :=
  ∃ cells, m.cells.Perm cells ∧ List.Forall₂ SamePorts cells m'.cells

section
variable {tags : Tags} {aliases : AliasMap} {m m' : Module} {c c' : Cell}

theorem SamePorts.symm (h : SamePorts c c') : SamePorts c' c := ⟨h.1.symm, h.2.symm⟩

/-- The order of its entries makes no difference for what a table holds. -/
theorem SamePorts.get?_eq (h : SamePorts c c') (port : String) :
    c.ports.get? port = c'.ports.get? port := by
  refine Option.ext fun s => ⟨fun hs => ?_, fun hs => ?_⟩
  · exact OrderedTable.get?_of_mem (h.2.mem_iff.mp (OrderedTable.mem_of_get? hs))
  · exact OrderedTable.get?_of_mem (h.2.mem_iff.mpr (OrderedTable.mem_of_get? hs))

theorem SamePorts.portBit?_eq (h : SamePorts c c') (port : String) (i : Nat) :
    Survey.portBit? c port i = Survey.portBit? c' port i := by
  unfold Survey.portBit?
  rw [h.get?_eq]

theorem SamePorts.mem_pins {π : Pin} (h : SamePorts π.cell c') (hπ : π ∈ Pin.ofModule m)
    (hc' : c' ∈ m'.cells) : { π with cell := c' } ∈ Pin.ofModule m' := by
  refine Pin.mem_ofModule.mpr ⟨hc', ?_⟩
  rw [← (Pin.mem_ofModule.mp hπ).2, h.portBit?_eq]

theorem SamePorts.portBit_eq {π : Pin} (h : SamePorts π.cell c') :
    { π with cell := c' }.portBit = π.portBit := by
  unfold Pin.portBit
  rw [h.1]

theorem SamePorts.inverter?_eq {π : Pin} (h : SamePorts π.cell c') :
    { π with cell := c' }.inverter? tags aliases = π.inverter? tags aliases := by
  unfold Pin.inverter?
  rw [h.portBit_eq]
  simp only [← h.portBit?_eq]

namespace Reordered

theorem exists_cell (h : Reordered m m') :
    (∀ c ∈ m.cells, ∃ c' ∈ m'.cells, SamePorts c c') ∧
      ∀ c' ∈ m'.cells, ∃ c ∈ m.cells, SamePorts c' c := by
  obtain ⟨cells, hperm, hsame⟩ := h
  obtain ⟨hlen, hget⟩ := List.forall₂_iff_get.mp hsame
  refine ⟨fun c hc => ?_, fun c' hc' => ?_⟩
  · obtain ⟨i, hi, rfl⟩ := List.mem_iff_getElem.mp (hperm.mem_iff.mp hc)
    exact ⟨_, List.getElem_mem (hlen ▸ hi), hget i hi (hlen ▸ hi)⟩
  · obtain ⟨i, hi, rfl⟩ := List.mem_iff_getElem.mp hc'
    have hi' : i < cells.length := hlen.symm ▸ hi
    exact ⟨_, hperm.mem_iff.mpr (List.getElem_mem hi'), (hget i hi' hi).symm⟩

/-- What depends on the type and the ports of a cell alone holds of a pin of the one module if
it does of a pin of the other one. -/
theorem exists_pin_iff (h : Reordered m m') {P : Pin → Prop}
    (hP : ∀ π c, SamePorts π.cell c → P π → P { π with cell := c }) :
    (∃ π ∈ Pin.ofModule m, P π) ↔ ∃ π ∈ Pin.ofModule m', P π := by
  refine ⟨fun hex => ?_, fun hex => ?_⟩
  · obtain ⟨π, hπ, hholds⟩ := hex
    obtain ⟨c', hc', hsame⟩ := h.exists_cell.1 π.cell (Pin.mem_ofModule.mp hπ).1
    exact ⟨_, hsame.mem_pins hπ hc', hP π c' hsame hholds⟩
  · obtain ⟨π, hπ, hholds⟩ := hex
    obtain ⟨c, hc, hsame⟩ := h.exists_cell.2 π.cell (Pin.mem_ofModule.mp hπ).1
    exact ⟨_, hsame.mem_pins hπ hc, hP π c hsame hholds⟩

/-- The pins show the same inverters and mark the same nets. -/
theorem alike (h : Reordered m m') (tags : Tags) (aliases : AliasMap) :
    Clocks.Alike (Pin.inverters tags aliases m) (Survey.ofModule tags aliases m).clocks
      (Pin.inverters tags aliases m') (Survey.ofModule tags aliases m').clocks where
  inverters i := by
    unfold Pin.inverters
    rw [List.mem_filterMap, List.mem_filterMap]
    refine h.exists_pin_iff fun π c hsame hi => ?_
    rw [hsame.inverter?_eq, hi]
  sinks net := by
    rw [Survey.mem_sinks_survey, Survey.mem_sinks_survey]
    refine h.exists_pin_iff fun π c hsame hnet => ?_
    rw [hsame.portBit_eq]
    exact hnet
  buffered net := by
    rw [Survey.mem_buffered_survey, Survey.mem_buffered_survey]
    refine h.exists_pin_iff fun π c hsame hnet => ?_
    rw [hsame.portBit_eq]
    exact hnet

end Reordered

end

/-- The loop ends, with nothing left to hand on and nothing marked without a reason. Where
inverters with the same output have the same input, it marks as buffered what the rules supply,
what wants a clock is what they demand and do not supply, and another order of the inverters
gives the same nets. Nor does another order of the cells of a module and of their ports give
other clock nets. -/
theorem propagate_exact :
    (∀ (is : List Inverter) (c : Clocks), c.propagate is = some (c.settle is) ∧
      Clocks.HandedOn is c (c.settle is) ∧ (Clocks.OneInput is →
        (∀ net, net ∈ (c.settle is).buffered ↔ Clocks.Supplied is c net) ∧
        (∀ net, (c.settle is).Wanting net ↔
          Clocks.Demanded is c net ∧ ¬ Clocks.Supplied is c net) ∧
        ∀ is', is.Perm is' → (c.settle is).SameNets (c.settle is'))) ∧
    ∀ (tags : Tags) (aliases : AliasMap) (m : Module),
      classify tags aliases m = some (Survey.ofModule tags aliases m).settled ∧
      (Clocks.OneInput (Pin.inverters tags aliases m) → ∀ m', Reordered m m' →
        (Survey.ofModule tags aliases m).settled.SameNets
          (Survey.ofModule tags aliases m').settled) := by
  refine ⟨fun is c => ⟨Clocks.propagate_eq_settle is c, Clocks.handedOn_settle is c, ?_⟩,
    fun tags aliases m => ⟨Clocks.propagate_eq_settle _ _, ?_⟩⟩
  · intro hu
    refine ⟨fun net => Clocks.mem_buffered_settle hu, fun net => Clocks.wanting_settle hu, ?_⟩
    intro is' hperm
    have halike : Clocks.Alike is c is' c :=
      ⟨fun i => hperm.mem_iff, fun net => Iff.rfl, fun net => Iff.rfl⟩
    exact halike.sameNets hu
  · intro hu m' h
    rw [Survey.settled_survey, Survey.settled_survey]
    exact (h.alike tags aliases).sameNets hu

/-- A register behind two inverters, the input port of each before its output or after it. -/
def inverterChain (inputFirst : Bool) : List Cell :=
  let inverter (name : String) (output input : Bit) : Cell :=
    { name, type := "INV"
      ports := if inputFirst then (OrderedTable.empty.set "I" [input]).set "O" [output]
        else (OrderedTable.empty.set "O" [output]).set "I" [input] }
  [inverter "near" (.wire 2 0) (.wire 1 0), inverter "far" (.wire 1 0) (.wire 0 0),
    { name := "register", type := "DFF", ports := OrderedTable.empty.set "C" [.wire 2 0] }]

def inverterTags : Tags where
  sinks := [⟨"DFF", "C", 0⟩]
  inverters := [(⟨"INV", "O", 0⟩, "I")]

/-- Round a ring the need comes back to where it is supplied; along a chain it goes to the far
end, whichever inverter is met first. -/
theorem propagate_exact_ring_chain :
    (({ sinks := [.wire 1 0] } : Clocks).settle
        [⟨.wire 1 0, .wire 2 0⟩, ⟨.wire 2 0, .wire 1 0⟩]).SameNets
      (({ sinks := [.wire 1 0] } : Clocks).settle
        [⟨.wire 2 0, .wire 1 0⟩, ⟨.wire 1 0, .wire 2 0⟩]) ∧
    (Survey.ofModule inverterTags {}
        { name := "top", cells := inverterChain true }).settled.SameNets
      (Survey.ofModule inverterTags {}
        { name := "top", cells := (inverterChain false).reverse }).settled ∧
    ∃ c, classify inverterTags {} { name := "top", cells := inverterChain true } = some c ∧
      c.Wanting (.wire 0 0) ∧ ¬ c.Wanting (.wire 1 0) := by
  refine ⟨?_, ?_, ?_⟩
  · obtain ⟨-, -, hunique⟩ := propagate_exact.1
      [⟨.wire 1 0, .wire 2 0⟩, ⟨.wire 2 0, .wire 1 0⟩] { sinks := [.wire 1 0] }
    exact (hunique (by decide)).2.2 _ (List.Perm.swap _ _ _)
  · refine (propagate_exact.2 inverterTags {} _).2 (by decide) _ ?_
    refine ⟨(inverterChain true).reverse, (List.reverse_perm _).symm, ?_⟩
    unfold SamePorts
    decide
  · refine ⟨_, (propagate_exact.2 inverterTags {} _).1, ?_⟩
    unfold Clocks.Wanting
    decide

end ClockNet.Buffering

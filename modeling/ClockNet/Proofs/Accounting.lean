import ClockNet.Proofs.Result
import Mathlib

/-! # What a run counts

Each action of a visit adds as many cells as it counts buffers and pads, a wire in front of each of
them, and one wire for each port that it replaces (`accounts_apply`); a visit then counts the
replaced ports (`accounts_complete`). Over the visits of a run this adds up to what the modules have
gained altogether (`balance_progressAfter`). -/

namespace ClockNet.Buffering

def Stats.cells (s : Stats) : Nat := s.buffers + s.pads

namespace Insertion

/-! ## Actions -/

/-- One state has gained on another the cells that it has counted since, a wire with each of them,
and a wire for each port replaced since. -/
structure Accounts (s t : Insertion) : Prop where
  cells : t.module.cells.length + s.stats.cells = s.module.cells.length + t.stats.cells
  wires : t.module.wires.length + (s.stats.cells + s.replaced.length) =
    s.module.wires.length + (t.stats.cells + t.replaced.length)
  renamed : t.stats.renamedPorts = s.stats.renamedPorts

namespace Accounts
variable {s t u : Insertion}

theorem refl (s : Insertion) : Accounts s s := ⟨rfl, rfl, rfl⟩

theorem trans (h : Accounts s t) (h' : Accounts t u) : Accounts s u := by
  obtain ⟨hc, hw, hr⟩ := h
  obtain ⟨hc', hw', hr'⟩ := h'
  exact ⟨by omega, by omega, hr'.trans hr⟩

end Accounts

theorem length_addParts (m : Module) (output : Bit) (specs : List BufferSpec) :
    (addParts m output specs).cells.length = m.cells.length + specs.length ∧
    (addParts m output specs).wires.length = m.wires.length + specs.length := by
  induction specs generalizing m output with
  | nil => exact ⟨rfl, rfl⟩
  | cons spec rest ih =>
    obtain ⟨hc, hw⟩ := ih (addBuffer m spec.type spec output).2 (.wire m.wires.length 0)
    rw [addBuffer_cells_length] at hc
    rw [addBuffer_wires_length] at hw
    rw [addParts, hc, hw, List.length_cons]
    exact ⟨by omega, by omega⟩

theorem insertBuffer_stats (e : Scene) (s : Insertion) (buffer : BufferSpec) (w : Wire)
    (index : Nat) (bit net : Bit) : (insertBuffer e s buffer w index bit net).2.stats =
      { s.stats with buffers := s.stats.buffers + 1 } := rfl

theorem insertPad_stats (s : Insertion) (pad : BufferSpec) (w : Wire) (index : Nat) (net : Bit)
    (buffer : Option Placement) : (s.insertPad pad w index net buffer).2.stats =
      { s.stats with pads := s.stats.pads + 1 } := rfl

theorem drive_stats (e : Scene) (s : Insertion) (w : Wire) (index : Nat) (bit net : Bit) :
    (drive e s w index bit net).stats.cells =
      s.stats.cells + (parts e s.module w bit).length ∧
    (drive e s w index bit net).stats.renamedPorts = s.stats.renamedPorts := by
  unfold Stats.cells
  cases hb : bufferFor? e s.module w with
  | none =>
    cases hp : padFor? e s.module w with
    | none => simp [drive, parts, hb, hp]
    | some pad =>
      simp [drive, parts, hb, hp, insertPad_stats]
      omega
  | some buffer =>
    have hstats := insertBuffer_stats e s buffer w index bit net
    have hpad : padFor? e (insertBuffer e s buffer w index bit net).2.module w =
        padFor? e s.module w := padFor?_grown (grown_addBuffer _ _ _ _) e w
    unfold drive
    simp only [hb]
    generalize insertBuffer e s buffer w index bit net = r at hstats hpad ⊢
    obtain ⟨place, t⟩ := r
    dsimp only at hstats hpad ⊢
    rw [hpad]
    cases hp : padFor? e s.module w with
    | none =>
      simp [parts, hb, hp, hstats]
      omega
    | some pad =>
      simp [parts, hb, hp, insertPad_stats, hstats]
      omega

theorem accounts_apply (e : Scene) (m : Module) (s : Insertion) (a : Action) :
    Accounts s (a.apply e m s) := by
  cases a with
  | drive id i =>
    obtain ⟨hm, -, -, hr⟩ := drive_spec e s (m.wire id) i (.wire id i)
      (e.aliases.root (.wire id i))
    obtain ⟨hcells, hrenamed⟩ := drive_stats e s (m.wire id) i (.wire id i)
      (e.aliases.root (.wire id i))
    obtain ⟨hc, hw⟩ := length_addParts s.module (e.aliases.root (.wire id i))
      (parts e s.module (m.wire id) (.wire id i))
    refine ⟨?_, ?_, hrenamed⟩
    · show (drive e s _ _ _ _).module.cells.length + _ = _ + (drive e s _ _ _ _).stats.cells
      rw [hm, hc, hcells]
      omega
    · show (drive e s _ _ _ _).module.wires.length + _ =
        _ + ((drive e s _ _ _ _).stats.cells + (drive e s _ _ _ _).replaced.length)
      rw [hm, hw, hcells, hr]
      omega
  | publishSink id i => exact ⟨rfl, rfl, rfl⟩
  | publishBuffered id i => exact ⟨rfl, rfl, rfl⟩
  | replace id =>
    obtain ⟨name, n, -, he⟩ := replaceInput_module e s id (m.wire id)
    show Accounts s (s.replaceInput e id (m.wire id))
    rw [he]
    refine ⟨rfl, ?_, rfl⟩
    simp only [List.length_append, List.length_singleton]
    omega

theorem accounts_foldl (e : Scene) (m : Module) (s : Insertion) (as : List Action) :
    Accounts s (as.foldl (Action.apply e m) s) := by
  induction as generalizing s with
  | nil => exact Accounts.refl s
  | cons a rest ih => exact (accounts_apply e m s a).trans (ih _)

theorem accounts_inserted (e : Scene) (s : Insertion) : Accounts s (s.inserted e) := by
  obtain ⟨tags, ht⟩ := publishOutputs_rest e (s.visitWires e)
  have h : Accounts s (s.visitWires e) := by
    rw [visitWires_eq]
    exact accounts_foldl e _ s _
  unfold inserted
  rw [ht]
  exact ⟨h.cells, h.wires, h.renamed⟩

theorem complete_stats (e : Scene) (s : Insertion) :
    (s.complete e).stats.cells = (s.inserted e).stats.cells ∧
    (s.complete e).stats.renamedPorts =
      (s.inserted e).stats.renamedPorts + (s.inserted e).replaced.length := by
  rw [complete_eq]
  unfold restoreLoads
  split <;> exact ⟨rfl, rfl⟩

theorem accounts_complete {e : Scene} {s : Insertion} (hs : s.Fresh) :
    (s.complete e).module.cells.length + s.stats.cells =
      s.module.cells.length + (s.complete e).stats.cells ∧
    (s.complete e).module.wires.length + (s.stats.cells + s.stats.renamedPorts) =
      s.module.wires.length + ((s.complete e).stats.cells + (s.complete e).stats.renamedPorts) := by
  obtain ⟨hc, hw, hr⟩ := accounts_inserted e s
  obtain ⟨hcells, hrenamed⟩ := complete_stats e s
  have hnone : s.replaced.length = 0 := by rw [hs.replaced]; rfl
  rw [length_complete_cells, length_complete_wires, hcells, hrenamed]
  exact ⟨hc, by omega⟩

end Insertion

/-! ## Visits and runs -/

end ClockNet.Buffering

namespace ClockNet.Design

def cellCount (d : Design) : Nat := (d.modules.map (·.cells.length)).sum

def wireCount (d : Design) : Nat := (d.modules.map (·.wires.length)).sum

/-- A sum over the modules changes by what the one that is replaced contributes. -/
theorem sum_replace (f : Module → Nat) {d : Design} (hn : (d.modules.map (·.name)).Nodup)
    {m m' : Module} (hm : m ∈ d.modules) (hname : m'.name = m.name) :
    ((d.replace m').modules.map f).sum + f m = (d.modules.map f).sum + f m' := by
  obtain ⟨modules⟩ := d
  unfold replace
  rw [hname]
  dsimp only at hn hm ⊢
  induction modules with
  | nil => cases hm
  | cons x rest ih =>
    obtain ⟨hx, hrest⟩ := List.nodup_cons.mp hn
    rw [List.map_cons, List.map_cons, List.map_cons, List.sum_cons, List.sum_cons]
    rcases List.mem_cons.mp hm with rfl | hm
    · have hkeep : rest.map (fun old => if old.name = m.name then m' else old) = rest := by
        refine (List.map_congr_left ?_).trans (List.map_id rest)
        intro old hold
        exact if_neg fun he => hx (List.mem_map.mpr ⟨old, hold, he⟩)
      rw [hkeep, if_pos rfl]
      omega
    · have hne : x.name ≠ m.name := fun he => hx (List.mem_map.mpr ⟨m, hm, he.symm⟩)
      have h := ih hrest hm
      rw [if_neg hne]
      omega

end ClockNet.Design

namespace ClockNet.Buffering

/-- The design of one state has gained on that of another the cells and wires that have been counted
since. -/
structure Balance (p q : Progress) : Prop where
  cells : q.design.cellCount + p.stats.cells = p.design.cellCount + q.stats.cells
  wires : q.design.wireCount + (p.stats.cells + p.stats.renamedPorts) =
    p.design.wireCount + (q.stats.cells + q.stats.renamedPorts)

section
variable {o : Options} {d : Design} {p : Progress}

theorem balance_visit (hd : p.design.NamesUnique) (name : String) :
    Balance p (visitModule o (buffersInputs o d) p name) := by
  cases hm : p.design.find? name with
  | none =>
    have he : visitModule o (buffersInputs o d) p name = p := by
      unfold visitModule
      rw [hm]
    rw [he]
    exact ⟨rfl, rfl⟩
  | some m =>
    have hname := Design.name_of_find? hm
    have hmem := Design.mem_of_find? hm
    subst hname
    cases hb : m.isBlackbox with
    | true =>
      rw [visit_blackbox hm hb]
      exact ⟨rfl, rfl⟩
    | false =>
      have hs : (entryIn o d p m).Fresh := fresh_entry (hd.modules m hmem)
      have hexit : (exitIn o d p m).module.name = m.name := exit_name (hd.modules m hmem)
      have hcount := Insertion.accounts_complete (e := sceneIn o d p m) hs
      have hcells : (exitIn o d p m).module.cells.length + p.stats.cells =
          m.cells.length + (exitIn o d p m).stats.cells := hcount.1
      have hwires : (exitIn o d p m).module.wires.length +
          (p.stats.cells + p.stats.renamedPorts) = m.wires.length +
            ((exitIn o d p m).stats.cells + (exitIn o d p m).stats.renamedPorts) := hcount.2
      have hc := Design.sum_replace (·.cells.length) hd.names hmem hexit
      have hw := Design.sum_replace (·.wires.length) hd.names hmem hexit
      rw [visit_module hm hb]
      exact ⟨by dsimp only [Design.cellCount]; omega, by dsimp only [Design.wireCount]; omega⟩

/-- What has been counted in the course of a run is what the design has gained. -/
theorem balance_progressAfter (hd : d.NamesUnique) (hp : d.PortsNumbered) (names : List String) :
    Balance (startOf o d) (progressAfter o d names) := by
  induction names using List.reverseRecOn with
  | nil => exact ⟨rfl, rfl⟩
  | append_singleton names last ih =>
    obtain ⟨hc, hw⟩ := ih
    obtain ⟨hc', hw'⟩ := balance_visit (o := o) (d := d)
      (ofDesign_progressAfter (o := o) hd hp names).1 last
    rw [progressAfter_append]
    exact ⟨by omega, by omega⟩

end

end ClockNet.Buffering

import ClockNet.NetlistJson.Export
import ClockNet.Proofs.Homes

/-! # Numbers of nets

A numbering grows only at its end while a module is written, so what is written under way is what
the numbering in the end gives (`Writes`). The numbering in the end has the nets of all bits of
wires, and so tells any two of them apart (`exportModule_eq`). -/

namespace ClockNet.NetlistJson

section
variable {α β γ δ : Type} (aliases : AliasMap)

/-- How a bit is written when the numbering is known: by its constant or by the number of its
net. -/
def bitJson (nets : Numbering) (b : Bit) : Json :=
  match aliases.root b with
  | .const t => .string t.toChar.toString
  | root => .ofNat (nets.idxOf root + firstNet)

/-- What writing an item does: the numbering grows at its end, it has the nets of the item, and the
item is written by the numbers that it has in every numbering that goes on from there. -/
structure Writes (write : Numbering → α → β × Numbering) (bits : α → Signal)
    (json : Numbering → α → β) : Prop where
  grows : ∀ nets a, nets <+: (write nets a).2
  covers : ∀ nets a, ∀ b ∈ bits a, (aliases.root b).isConst = false →
    aliases.root b ∈ (write nets a).2
  written : ∀ nets a final, (write nets a).2 <+: final → (write nets a).1 = json final a

variable {aliases}

theorem idxOf_of_prefix {nets final : Numbering} (h : nets <+: final) {b : Bit} (hb : b ∈ nets) :
    final.idxOf b = nets.idxOf b := by
  obtain ⟨rest, rfl⟩ := h
  exact List.idxOf_append_of_mem hb

/-- A net that is new has the next number. -/
theorem writes_bit : Writes aliases (exportBit aliases) (fun b => [b]) (bitJson aliases) := by
  have hcases : ∀ nets b, (∃ t, aliases.root b = .const t ∧
        exportBit aliases nets b = (.string t.toChar.toString, nets)) ∨
      (aliases.root b).isConst = false ∧ ∃ nets', nets <+: nets' ∧ aliases.root b ∈ nets' ∧
        exportBit aliases nets b = (.ofNat (nets'.idxOf (aliases.root b) + firstNet), nets') := by
    intro nets b
    unfold exportBit
    cases hr : aliases.root b with
    | const t => exact .inl ⟨t, rfl, rfl⟩
    | wire id i =>
      refine .inr ⟨rfl, ?_⟩
      cases hfound : nets.idxOf? (Bit.wire id i) with
      | some n =>
        have hmem : Bit.wire id i ∈ nets := by
          by_contra hnew
          rw [List.idxOf?_eq_none_iff.mpr hnew] at hfound
          cases hfound
        refine ⟨nets, List.prefix_refl _, hmem, ?_⟩
        simp [List.idxOf_eq_getD_idxOf?, hfound]
      | none =>
        have hnew := List.idxOf?_eq_none_iff.mp hfound
        refine ⟨nets ++ [.wire id i], List.prefix_append _ _, by simp, ?_⟩
        simp [hfound, List.idxOf_append, hnew]
  refine ⟨?_, ?_, ?_⟩
  · intro nets b
    rcases hcases nets b with ⟨t, -, he⟩ | ⟨-, nets', hgrows, -, he⟩
    · have hsame : (exportBit aliases nets b).2 = nets := congrArg Prod.snd he
      exact hsame.symm ▸ List.prefix_refl nets
    · rwa [he]
  · intro nets b b' hb' hc
    obtain rfl := List.mem_singleton.mp hb'
    rcases hcases nets b' with ⟨t, ht, he⟩ | ⟨-, nets', -, hmem, he⟩
    · rw [ht] at hc
      cases hc
    · rwa [he]
  · intro nets b final hfinal
    rcases hcases nets b with ⟨t, ht, he⟩ | ⟨hc, nets', -, hmem, he⟩
    · rw [he, bitJson, ht]
    · rw [he] at hfinal ⊢
      rw [← idxOf_of_prefix hfinal hmem, bitJson]
      cases hr : aliases.root b with
      | const t =>
        rw [hr] at hc
        cases hc
      | wire id i => rfl

variable {write : Numbering → α → β × Numbering} {bits : α → Signal} {json : Numbering → α → β}

theorem Writes.each (h : Writes aliases write bits json) :
    Writes aliases (exportEach write) (·.flatMap bits) fun nets l => l.map (json nets) := by
  have hgrows : ∀ l nets, nets <+: (exportEach write nets l).2 := by
    intro l
    induction l with
    | nil => exact fun nets => List.prefix_refl nets
    | cons a rest ih => exact fun nets => (h.grows nets a).trans (ih _)
  refine ⟨fun nets l => hgrows l nets, ?_, ?_⟩
  · intro nets l
    induction l generalizing nets with
    | nil => exact fun b hb => by cases hb
    | cons a rest ih =>
      intro b hb hc
      rw [List.flatMap_cons, List.mem_append] at hb
      rcases hb with hb | hb
      · exact (hgrows rest _).subset (h.covers nets a b hb hc)
      · exact ih _ b hb hc
  · intro nets l
    induction l generalizing nets with
    | nil => exact fun final _ => rfl
    | cons a rest ih =>
      intro final hfinal
      have hfirst := h.written nets a final ((hgrows rest _).trans hfinal)
      have hrest := ih (write nets a).2 final hfinal
      show (write nets a).1 :: (exportEach write (write nets a).2 rest).1 = _
      rw [hfirst, hrest]
      rfl

theorem Writes.part (h : Writes aliases write bits json) (part : γ → α) (whole : γ → β → δ) :
    Writes aliases (fun nets c => (whole c (write nets (part c)).1, (write nets (part c)).2))
      (fun c => bits (part c)) fun nets c => whole c (json nets (part c)) where
  grows nets c := h.grows nets (part c)
  covers nets c := h.covers nets (part c)
  written nets c final hfinal := congrArg (whole c) (h.written nets (part c) final hfinal)

theorem exportBits_eq (nets : Numbering) (s : Signal) :
    exportBits aliases nets s = exportEach (exportBit aliases) nets s := by
  induction s generalizing nets with
  | nil => rfl
  | cons b rest ih => simp only [exportBits, exportEach, ih]

def signalJson (aliases : AliasMap) (nets : Numbering) (s : Signal) : Json :=
  .array (s.map (bitJson aliases nets))

theorem writes_signal :
    Writes aliases (exportSignal aliases) (fun s => s) (signalJson aliases) := by
  have hbit : Writes aliases _ _ _ := writes_bit
  have hbits := hbit.each.part (fun s : Signal => s) fun _ bits => Json.array bits
  have hsame : exportSignal aliases = fun nets s =>
      (Json.array (exportEach (exportBit aliases) nets s).1,
        (exportEach (exportBit aliases) nets s).2) := by
    funext nets s
    rw [← exportBits_eq]
    rfl
  rw [hsame]
  refine ⟨hbits.grows, ?_, hbits.written⟩
  intro nets s b hb
  refine hbits.covers nets s b ?_
  simpa using hb

end

/-! ## Modules -/

section
variable (signatures : Signatures) (m : Module) (nets : Numbering)

def portEntry (port : WireId × Direction) : String × Json :=
  ((m.wire port.1).name, .object ([("direction", exportDirection port.2),
    ("bits", signalJson m.aliases nets (m.wireSignal port.1))] ++ exportShape (m.wire port.1)))

def connectionEntry (e : String × Signal) : String × Json :=
  (e.1, signalJson m.aliases nets e.2)

def cellEntry (c : Cell) : String × Json :=
  (c.name, .object [
    ("hide_name", hideName c.name),
    ("type", .string c.type),
    ("parameters", exportAttributes c.parameters),
    ("attributes", exportAttributes c.attributes),
    ("port_directions", .object (c.ports.entries.filterMap fun e =>
      (signatures.direction c e.1).map fun d => (e.1, exportDirection d))),
    ("connections", .object (c.ports.entries.map (connectionEntry m nets)))])

def wireEntry (id : WireId) : String × Json :=
  ((m.wire id).name, .object ([("hide_name", hideName (m.wire id).name),
    ("bits", signalJson m.aliases nets (m.wireSignal id))] ++ exportShape (m.wire id) ++
      [("attributes", exportAttributes (m.wire id).attributes)]))

theorem writes_port : Writes m.aliases (exportPort m m.aliases)
    (fun port => m.wireSignal port.1) (portEntry m) :=
  writes_signal.part (fun port : WireId × Direction => m.wireSignal port.1) fun port bits =>
    ((m.wire port.1).name, Json.object ([("direction", exportDirection port.2), ("bits", bits)] ++
      exportShape (m.wire port.1)))

theorem writes_cell : Writes m.aliases (exportCell signatures m.aliases)
    (fun c => c.ports.entries.flatMap (·.2)) (cellEntry signatures m) :=
  (writes_signal.part (fun e : String × Signal => e.2) fun e s => (e.1, s)).each.part
    (fun c : Cell => c.ports.entries) fun c connections =>
      (c.name, Json.object [
        ("hide_name", hideName c.name),
        ("type", .string c.type),
        ("parameters", exportAttributes c.parameters),
        ("attributes", exportAttributes c.attributes),
        ("port_directions", .object (c.ports.entries.filterMap fun e =>
          (signatures.direction c e.1).map fun d => (e.1, exportDirection d))),
        ("connections", .object connections)])

theorem writes_wire : Writes m.aliases (exportNet m m.aliases) m.wireSignal (wireEntry m) :=
  writes_signal.part m.wireSignal fun id bits =>
    ((m.wire id).name, Json.object ([("hide_name", hideName (m.wire id).name), ("bits", bits)] ++
      exportShape (m.wire id) ++ [("attributes", exportAttributes (m.wire id).attributes)]))

/-- A module is written by one numbering, which has the nets of all bits of its wires. -/
theorem exportModule_eq : ∃ nets : Numbering,
    (∀ p ∈ m.places, (m.aliases.root p).isConst = false → m.aliases.root p ∈ nets) ∧
      exportModule signatures m = .object [
        ("attributes", exportAttributes m.attributes),
        ("ports", .object ((exportedPorts m).map (portEntry m nets))),
        ("cells", .object (m.cells.map (cellEntry signatures m nets))),
        ("netnames", .object (m.wireIds.map (wireEntry m nets)))] := by
  have hports := (writes_port m).each
  have hcells := (writes_cell signatures m).each
  have hwires := (writes_wire m).each
  let afterPorts := (exportEach (exportPort m m.aliases) [] (exportedPorts m)).2
  let afterCells := (exportEach (exportCell signatures m.aliases) afterPorts m.cells).2
  let final := (exportEach (exportNet m m.aliases) afterCells m.wireIds).2
  have hfinal : afterCells <+: final := hwires.grows afterCells m.wireIds
  have h₁ := hports.written [] (exportedPorts m) final
    ((hcells.grows afterPorts m.cells).trans hfinal)
  have h₂ := hcells.written afterPorts m.cells final hfinal
  have h₃ := hwires.written afterCells m.wireIds final (List.prefix_refl _)
  refine ⟨final, hwires.covers afterCells m.wireIds, ?_⟩
  rw [← h₁, ← h₂, ← h₃]
  rfl

end

end ClockNet.NetlistJson

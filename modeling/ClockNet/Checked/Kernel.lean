import ClockNet.Alias
import ClockNet.Design
import ClockNet.Proofs.Chunks
import ClockNet.Proofs.Ports
import ClockNet.Text.Step
import Mathlib.Data.List.Induction

/-! # Operations with their assertions

The operations on modules and designs ask for things: an id belongs to a wire, a slice lies in its
signal, a name is new. A program built on operations that check what they ask for shows by its
outcome whether an assertion can fail: it ends in a `Breach` where a check does. `Checked.Agrees`
says that it never does, and that the outcome is that of a program without checks. Here stand the
operations that only look things up; those that change a module need the maps of its names. -/

namespace ClockNet

/-- A failed assertion, or an index that is out of range. -/
inductive Breach where
  | duplicateWire (name module : String)
  | duplicateCell (name module : String)
  | duplicateModule (name : String)
  | widthMismatch (driven driver : Nat)
  | noWire (id : WireId)
  | noCell (id : CellId)
  /-- A slice from `low` up to, and without, `high` of a signal of some length. -/
  | noSlice (low high length : Nat)
  /-- An index into the bits of a chunk. -/
  | noBit (index length : Nat)
  /-- A search for a fresh name that does not end. -/
  | endless (stem : String)
  /-- A step of a reader that leaves all that there was to read. -/
  | stuck
deriving DecidableEq, Inhabited

/-- Why a program gives no result: an assertion fails, or it refuses what it is given. -/
inductive Stop (ε : Type) where
  | breach (b : Breach)
  | refusal (e : ε)

/-- The outcome of a program that checks its assertions. -/
abbrev Checked (ε : Type) := Except (Stop ε)

namespace Checked
variable {ε α β γ δ σ τ : Type}

/-- The outcome of a program without assertions. -/
def lift (x : Except ε α) : Checked ε α := x.mapError .refusal

/-- Goes on if something holds. -/
def ensure (p : Prop) [Decidable p] (b : Breach) : Checked ε Unit :=
  if p then .ok () else .error (.breach b)

/-- Goes on with a value that has to be there. -/
def demand (b : Breach) : Option α → Checked ε α
  | some a => .ok a
  | none => .error (.breach b)

/-- Goes on with what a step has left to read, which has to be less than `ts`. -/
def advance (ts : List β) (x : Checked ε (α × List β))
    (next : (a : α) → (rest : List β) → rest.length < ts.length → Checked ε γ) : Checked ε γ := do
  let (a, rest) ← x
  if h : rest.length < ts.length then next a rest h else .error (.breach .stuck)

@[simp] theorem lift_ok (a : α) : lift (.ok a : Except ε α) = .ok a := rfl

@[simp] theorem bind_ok (a : α) (next : α → Checked ε β) : (.ok a >>= next) = next a := rfl

@[simp] theorem demand_some (b : Breach) (a : α) : demand (ε := ε) b (some a) = .ok a := rfl

theorem ensure_ok {p : Prop} [Decidable p] (h : p) (b : Breach) : ensure (ε := ε) p b = .ok () :=
  if_pos h

theorem advance_ok {ts rest : List β} (h : rest.length < ts.length) {a : α}
    (next : (a : α) → (rest : List β) → rest.length < ts.length → Checked ε γ) :
    advance ts (.ok (a, rest)) next = next a rest h := dif_pos h

/-! ## Agreement -/

/-- A program that checks its assertions ends as one without them: it refuses for the same reason,
or both have results, and these are related. So no assertion fails. -/
inductive Agrees (R : α → β → Prop) : Checked ε α → Except ε β → Prop where
  | ok {a : α} {b : β} (h : R a b) : Agrees R (.ok a) (.ok b)
  | refusal (e : ε) : Agrees R (.error (.refusal e)) (.error e)

/-- Related values, with the same behind them. -/
def Leaves (R : α → β → Prop) (p : α × γ) (q : β × γ) : Prop := R p.1 q.1 ∧ p.2 = q.2

variable {R : α → β → Prop} {S : γ → δ → Prop} {x : Checked ε α} {y : Except ε β}

theorem agrees_ok {b : β} : Agrees R x (.ok b) ↔ ∃ a, x = .ok a ∧ R a b := by
  constructor
  · rintro ⟨h⟩
    exact ⟨_, rfl, h⟩
  · rintro ⟨a, rfl, h⟩
    exact .ok h

theorem Agrees.of_ok {a : α} (h : Agrees R (.ok a) y) : ∃ b, y = .ok b ∧ R a b := by
  cases h with
  | ok h => exact ⟨_, rfl, h⟩

theorem agrees_lift (x : Except ε α) : Agrees Eq (lift x) x := by
  cases x with
  | ok a => exact .ok rfl
  | error e => exact .refusal e

theorem leaves_lift (x : Except ε (α × γ)) : Agrees (Leaves Eq) (lift x) x := by
  cases x with
  | ok p => exact .ok ⟨rfl, rfl⟩
  | error e => exact .refusal e

theorem Agrees.mono {R' : α → β → Prop} (h : Agrees R x y) (hr : ∀ a b, R a b → R' a b) :
    Agrees R' x y := by
  cases h with
  | ok h => exact .ok (hr _ _ h)
  | refusal e => exact .refusal e

theorem Agrees.bind {next : α → Checked ε γ} {next' : β → Except ε δ} (h : Agrees R x y)
    (hnext : ∀ a b, y = .ok b → R a b → Agrees S (next a) (next' b)) :
    Agrees S (x >>= next) (y >>= next') := by
  cases h with
  | ok h => exact hnext _ _ rfl h
  | refusal e => exact .refusal e

theorem agrees_lift_bind {x : Except ε α} {next : α → Checked ε γ} {next' : α → Except ε δ}
    (h : ∀ a, x = .ok a → Agrees S (next a) (next' a)) : Agrees S (lift x >>= next) (x >>= next') :=
  (agrees_lift x).bind fun _ b hb he => he ▸ h b hb

/-- The plain reader goes on with less to read, and so does the one that checks it. -/
theorem Agrees.advance {ts : List σ} {x : Checked ε (α × List σ)} {y : Except ε (β × List σ)}
    {next : (a : α) → (rest : List σ) → rest.length < ts.length → Checked ε γ}
    {next' : (q : β × List σ) → y = .ok q → Except ε δ} (h : Agrees (Leaves R) x y)
    (hlength : ∀ b rest, y = .ok (b, rest) → rest.length < ts.length)
    (hnext : ∀ a b rest hlt (hy : y = .ok (b, rest)), R a b →
      Agrees S (next a rest hlt) (next' (b, rest) hy)) :
    Agrees S (Checked.advance ts x next) (Text.andThen y next') := by
  cases h with
  | refusal e => exact .refusal e
  | @ok p q h =>
    obtain ⟨a, rest⟩ := p
    obtain ⟨b, rest'⟩ := q
    obtain ⟨hr, rfl⟩ := h
    rw [advance_ok (hlength b rest rfl)]
    exact hnext a b rest _ rfl hr

theorem Agrees.foldlM {R : σ → τ → Prop} {f : σ → α → Checked ε σ} {g : τ → α → Except ε τ}
    {s : σ} {t : τ} (hs : R s t) {l : List α}
    (h : ∀ s t, R s t → ∀ a ∈ l, Agrees R (f s a) (g t a)) :
    Agrees R (l.foldlM f s) (l.foldlM g t) := by
  induction l generalizing s t with
  | nil => exact .ok hs
  | cons a rest ih =>
    rw [List.foldlM_cons, List.foldlM_cons]
    exact (h s t hs a List.mem_cons_self).bind fun s t _ hs =>
      ih hs fun s t hs b hb => h s t hs b (List.mem_cons_of_mem _ hb)

/-- A loop that refuses nothing agrees with the plain one if each step does. -/
theorem foldlM_agrees {R : σ → τ → Prop} {f : σ → α → Checked ε σ} {g : τ → α → τ} {s : σ} {t : τ}
    (hs : R s t) {l : List α} (h : ∀ s t, R s t → ∀ a ∈ l, ∃ s', f s a = .ok s' ∧ R s' (g t a)) :
    ∃ s', l.foldlM f s = .ok s' ∧ R s' (l.foldl g t) := by
  induction l generalizing s t with
  | nil => exact ⟨s, rfl, hs⟩
  | cons a rest ih =>
    obtain ⟨s', hstep, hs'⟩ := h s t hs a List.mem_cons_self
    rw [List.foldlM_cons, hstep, List.foldl_cons]
    exact ih hs' fun s t hs b hb => h s t hs b (List.mem_cons_of_mem _ hb)

theorem foldlM_ok {P : σ → Prop} {f : σ → α → σ} {g : σ → α → Checked ε σ} {l : List α} {s : σ}
    (hs : P s) (h : ∀ s, P s → ∀ a ∈ l, g s a = .ok (f s a) ∧ P (f s a)) :
    l.foldlM g s = .ok (l.foldl f s) := by
  obtain ⟨s', he, rfl, -⟩ := foldlM_agrees (R := fun s t => s = t ∧ P t) ⟨rfl, hs⟩
    (fun s t hst a ha => ⟨f s a, hst.1 ▸ (h t hst.2 a ha).1, hst.1 ▸ rfl, (h t hst.2 a ha).2⟩)
  exact he

theorem mapM_ok {l : List α} {f : α → Checked ε β} {g : α → β} (h : ∀ a ∈ l, f a = .ok (g a)) :
    l.mapM f = .ok (l.map g) := by
  induction l with
  | nil => rfl
  | cons a rest ih =>
    rw [List.mapM_cons, h a List.mem_cons_self, bind_ok,
      ih fun b hb => h b (List.mem_cons_of_mem _ hb)]
    rfl

theorem forM_ok {l : List α} {f : α → Checked ε Unit} (h : ∀ a ∈ l, f a = .ok ()) :
    l.forM f = .ok () := by
  induction l with
  | nil => rfl
  | cons a rest ih =>
    rw [List.forM_eq_forM, List.forM_cons, h a List.mem_cons_self]
    exact ih fun b hb => h b (List.mem_cons_of_mem _ hb)

end Checked

open Checked (demand ensure)

variable {ε : Type}

/-! ## Signals -/

namespace Signal

/-- The bits from `low` up to, and without, `high`, which lie in the signal. -/
def slice (s : Signal) (low high : Nat) : Checked ε Signal :=
  demand (.noSlice low high s.length) (s.slice? low high)

def bitAt (chunk : Signal) (index : Nat) : Checked ε Bit :=
  demand (.noBit index chunk.length) chunk[index]?

/-- Adds a bit to the chunks of what stands before it: to the last one, if it goes on from the
last bit of that. -/
def pushBit (chunks : List Signal) (b : Bit) : Checked ε (List Signal) :=
  match chunks.getLast? with
  | none => .ok [[b]]
  | some chunk => do
    let last ← bitAt chunk (chunk.length - 1)
    .ok (if last.continues b then chunks.dropLast ++ [chunk ++ [b]] else chunks ++ [[b]])

/-- The chunks of a signal, found from its first bit on. -/
def split (s : Signal) : Checked ε (List Signal) := s.foldlM pushBit []

/-- A part of a wire is the slice of all its bits. -/
theorem slice_ofWire (id : WireId) {width low high : Nat} (hlow : low ≤ high)
    (hhigh : high < width) :
    (ofWire id width).slice (ε := ε) low (high + 1) = .ok (ofPlaces id low high) := by
  have hlength : (ofWire id width).length = width := by simp [ofWire]
  have hbits : ((ofWire id width).take (high + 1)).drop low = ofPlaces id low high := by
    refine List.ext_getElem ?_ fun i hi _ => ?_
    · simp only [List.length_drop, List.length_take, hlength, ofPlaces, List.length_map,
        List.length_range']
      omega
    · simp [ofWire, ofPlaces]
  rw [slice, slice?, if_pos (by omega), Checked.demand_some, hbits]

theorem pushBit_concat (chunks : List Signal) (chunk : Signal) (last b : Bit) :
    pushBit (ε := ε) (chunks ++ [chunk ++ [last]]) b = .ok (if last.continues b
      then chunks ++ [chunk ++ [last, b]] else chunks ++ [chunk ++ [last], [b]]) := by
  simp [pushBit, bitAt]

/-- It makes no difference whether a bit before the chunks or one behind them comes first. -/
theorem pushBit_consChunk {chunks next : List Signal} (a b : Bit) (hne : ∀ c ∈ chunks, c ≠ [])
    (h : pushBit (ε := ε) chunks b = .ok next) :
    pushBit (ε := ε) (consChunk a chunks) b = .ok (consChunk a next) := by
  rcases List.eq_nil_or_concat chunks with rfl | ⟨front, last, rfl⟩
  · cases h
    exact (pushBit_concat [] [] a b).trans (by simp only [consChunk]; split <;> rfl)
  rcases List.eq_nil_or_concat last with rfl | ⟨bits, bit, rfl⟩
  · exact absurd rfl (hne [] (by simp))
  simp only [List.concat_eq_append] at h hne ⊢
  rw [pushBit_concat] at h
  obtain rfl := Except.ok.inj h
  match front, bits with
  | [], [] =>
    -- the only chunk is a single bit, which both bits may join
    by_cases hab : a.continues bit
    · have h := pushBit_concat (ε := ε) [] [a] bit b
      by_cases hb : bit.continues b <;> simp_all [consChunk]
    · have h := pushBit_concat (ε := ε) [[a]] [] bit b
      by_cases hb : bit.continues b <;> simp_all [consChunk]
  | [], x :: bits =>
    by_cases hax : a.continues x
    · have h := pushBit_concat (ε := ε) [] (a :: x :: bits) bit b
      by_cases hb : bit.continues b <;> simp_all [consChunk]
    · have h := pushBit_concat (ε := ε) [[a]] (x :: bits) bit b
      by_cases hb : bit.continues b <;> simp_all [consChunk]
  | [] :: front, bits => exact absurd rfl (hne [] (by simp))
  | (x :: c) :: front, bits =>
    by_cases hax : a.continues x
    · have h := pushBit_concat (ε := ε) ((a :: x :: c) :: front) bits bit b
      by_cases hb : bit.continues b <;> simp_all [consChunk]
    · have h := pushBit_concat (ε := ε) ([a] :: (x :: c) :: front) bits bit b
      by_cases hb : bit.continues b <;> simp_all [consChunk]

/-- Chunks found from the last bit on are the chunks found from the first bit on. -/
theorem split_eq (s : Signal) : s.split (ε := ε) = .ok s.chunks := by
  have hpush : ∀ (s : Signal) (b : Bit), pushBit (ε := ε) s.chunks b = .ok (s ++ [b]).chunks := by
    intro s b
    induction s with
    | nil => rfl
    | cons a rest ih =>
      exact pushBit_consChunk a b (fun c hc => (isChunk_of_mem_chunks hc).ne_nil) ih
  induction s using List.reverseRecOn with
  | nil => rfl
  | append_singleton s b ih =>
    rw [split, List.foldlM_append, ← split, ih]
    exact (bind_pure _).trans (hpush s b)

end Signal

/-! ## Modules -/

namespace Module

/-- The wire of an id, which the module has. -/
def lookupWire (m : Module) (id : WireId) : Checked ε Wire := demand (.noWire id) m.wires[id]?

/-- The cell of an id, which the module has. -/
def lookupCell (m : Module) (id : CellId) : Checked ε Cell := demand (.noCell id) m.cells[id]?

/-- All bits of a wire that the module has. -/
def lookupSignal (m : Module) (id : WireId) : Checked ε Signal := do
  let w ← m.lookupWire id
  .ok (.ofWire id w.width)

def lookupWires (m : Module) (ids : List WireId) : Checked ε (List Wire) := ids.mapM m.lookupWire

section
variable {m : Module} {id : WireId}

theorem lookupWire_ok (h : id < m.wires.length) : m.lookupWire (ε := ε) id = .ok (m.wire id) := by
  rw [lookupWire, wire, List.getElem?_eq_getElem h]
  rfl

theorem lookupSignal_ok (h : id < m.wires.length) :
    m.lookupSignal (ε := ε) id = .ok (m.wireSignal id) := by
  rw [lookupSignal, lookupWire_ok h]
  rfl

theorem lookupWires_ok {ids : List WireId} (h : ∀ id ∈ ids, id < m.wires.length) :
    m.lookupWires (ε := ε) ids = .ok (ids.map m.wire) :=
  Checked.mapM_ok fun id hid => lookupWire_ok (h id hid)

theorem PortsNumbered.lookupWires_ports (h : m.PortsNumbered) :
    m.lookupWires (ε := ε) m.ports = .ok (m.ports.map m.wire) :=
  lookupWires_ok fun _ hid => lt_of_isPort (h.mem.mp hid)

end

end Module

/-! ## Alias maps and signatures -/

/-- The alias map of a module, whose connections must join signals of one length. -/
def AliasMap.build (m : Module) : Checked ε AliasMap :=
  m.connections.foldlM (fun a c => demand (.widthMismatch c.1.length c.2.length) (a.add? c.1 c.2))
    {}

theorem AliasMap.build_ok {m : Module} (h : ∀ c ∈ m.connections, c.1.length = c.2.length) :
    build (ε := ε) m = .ok (ofConnections m.connections) :=
  Checked.foldlM_ok (P := fun _ => True) trivial fun a _ c hc =>
    ⟨by rw [add?, if_pos (h c hc)]; rfl, trivial⟩

/-- The port directions of all modules, whose ports are looked up one by one. -/
def Signatures.build (d : Design) : Checked ε Signatures := do
  let modules ← d.modules.mapM fun m => do
    let ports ← m.lookupWires m.ports
    .ok (m.name, ports.filterMap fun w => w.direction.map fun direction => (w.name, direction))
  .ok ⟨modules⟩

theorem Signatures.build_ok {d : Design} (h : d.PortsNumbered) :
    build (ε := ε) d = .ok (ofDesign d) := by
  rw [build, Checked.mapM_ok (g := fun m => (m.name, ofModule m)) fun m hm => by
    rw [(h m hm).lookupWires_ports, Checked.bind_ok, List.filterMap_map]
    rfl]
  rfl

end ClockNet

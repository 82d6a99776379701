import ClockNet.Checked.Registries
import ClockNet.Proofs.Loading

/-! # Reading netlist text, with assertions

The reader again, on operations that check what they ask for and on modules with their maps: a wire
is looked up in the map and then by the id that it gives, a slice is cut out of all bits of the
wire, a wire or a cell is added bare and then filled in, and each round of a loop has to read
something. Whatever the text, the reader ends as the plain one does, and the maps have the names of
what has been read (`parse_agrees`). -/

namespace ClockNet.Rtlil.Checked

open ClockNet.Checked (Agrees Leaves advance advance_ok agrees_lift_bind bind_ok leaves_lift lift)
open Registry (Registers)

abbrev Step (α : Type) := List Located → ClockNet.Checked ParseError (α × List Located)

section
variable (lastLine : Nat) {r : Registry} {m : Module}

/-! ## Signals -/

def wireSlice (m : Module) (id : WireId) : Step Signal
  | ⟨.mark '[', _⟩ :: ts => do
    let bits ← m.lookupSignal id
    let (first, ts) ← lift (integer lastLine ts)
    let (last, ts) ← lift (lastIndex lastLine first ts)
    let ts ← lift (mark lastLine ']' ts)
    let w ← m.lookupWire id
    let fault := Fault.invalidSlice first last w.name
    match w.placeOf first, w.placeOf last with
    | some high, some low =>
      if low ≤ high then do
        let s ← bits.slice low (high + 1)
        .ok (s, ts)
      else lift (fail lastLine ts fault)
    | _, _ => lift (fail lastLine ts fault)
  | ts => do
    let bits ← m.lookupSignal id
    .ok (bits, ts)

/-- The part of a wire that is cut out lies in the wire, as its indices belong to places. -/
theorem wireSlice_agrees {id : WireId} (h : id < m.wires.length) (ts : List Located) :
    Agrees (Leaves Eq) (wireSlice lastLine m id ts)
      (Rtlil.wireSlice lastLine id (m.wire id) ts) := by
  fun_cases Rtlil.wireSlice lastLine id (m.wire id) ts with
  | case1 l ts =>
    simp only [wireSlice, Module.lookupSignal_ok h, Module.lookupWire_ok h, bind_ok]
    refine agrees_lift_bind fun first _ => ?_
    refine agrees_lift_bind fun last _ => ?_
    refine agrees_lift_bind fun ts _ => ?_
    cases hhigh : (m.wire id).placeOf first.1 with
    | none => exact leaves_lift _
    | some high =>
      cases (m.wire id).placeOf last.1 with
      | none => exact leaves_lift _
      | some low =>
        dsimp only
        by_cases hle : low ≤ high
        · rw [if_pos hle, if_pos hle, Module.wireSignal,
            Signal.slice_ofWire id hle (lt_of_placeOf hhigh)]
          exact .ok ⟨rfl, rfl⟩
        · rw [if_neg hle, if_neg hle]
          exact leaves_lift _
  | case2 ts hts =>
    rw [wireSlice, Module.lookupSignal_ok h]
    · exact .ok ⟨rfl, rfl⟩
    · exact hts

def chunk (r : Registry) : Step Signal
  | ⟨.const c, _⟩ :: ts => .ok (.ofConst c, ts)
  | ⟨.int i, _⟩ :: ts => .ok (.ofConst (.ofInt i 32), ts)
  | ⟨.name n, l⟩ :: ts =>
    match r.findWire n with
    | none => lift (fail lastLine (⟨.name n, l⟩ :: ts) (.unknownWire n))
    | some id => wireSlice lastLine r.module id ts
  | [] => lift (fail lastLine [] .endOfInput)
  | t :: ts => lift (fail lastLine (t :: ts) (.expected .signal t.token))

/-- The wires are those of the module, and the map finds them; cells make no difference. -/
structure Wired (r : Registry) (m : Module) : Prop where
  found : ∀ name, r.findWire name = m.findWire name
  wires : r.module.wires = m.wires

theorem wired_of_registers (h : r.Registers m) : Wired r m :=
  ⟨h.findWire, congrArg Module.wires h.module_eq⟩

theorem wired_of_addCell {c : Cell} (h : r.Registers (m.addCell c)) : Wired r m :=
  ⟨h.findWire, h.module_eq ▸ rfl⟩

theorem chunk_agrees (h : Wired r m) (ts : List Located) :
    Agrees (Leaves Eq) (chunk lastLine r ts) (Rtlil.chunk lastLine m ts) := by
  fun_cases Rtlil.chunk lastLine m ts with
  | case1 | case2 => exact .ok ⟨rfl, rfl⟩
  | case3 n l ts hfind =>
    rw [chunk, h.found, hfind]
    exact leaves_lift _
  | case4 n l ts id hfind =>
    have hid : id < r.module.wires.length := h.wires ▸ (Module.name_of_findWire hfind).1
    have hwire : r.module.wire id = m.wire id := by rw [Module.wire, h.wires, Module.wire]
    rw [chunk, h.found, hfind, ← hwire]
    exact wireSlice_agrees lastLine hid ts
  | case5 => exact leaves_lift _
  | case6 t ts h₁ h₂ h₃ =>
    rw [chunk]
    · exact leaves_lift _
    · exact h₁
    · exact h₂
    · exact h₃

def signalWithin (r : Registry) (opened : List (List Signal)) (ts : List Located) :
    ClockNet.Checked ParseError (Signal × List Located) :=
  match ts with
  | ⟨.mark '\x7b', _⟩ :: ts => signalWithin r ([] :: opened) ts
  | ⟨.mark '\x7d', l⟩ :: ts =>
    match opened with
    | [] => lift (fail lastLine (⟨.mark '\x7d', l⟩ :: ts) (.expected .signal (.mark '\x7d')))
    | [parts] => .ok (parts.flatten, ts)
    | parts :: outer :: rest => signalWithin r ((parts.flatten :: outer) :: rest) ts
  | ts =>
    advance ts (chunk lastLine r ts) fun s rest _h =>
      match opened with
      | [] => .ok (s, rest)
      | parts :: outer => signalWithin r ((s :: parts) :: outer) rest
termination_by ts.length
decreasing_by
  · exact Nat.lt_succ_self _
  · exact Nat.lt_succ_self _
  · exact _h

theorem signalWithin_agrees (h : Wired r m) (opened : List (List Signal)) (ts : List Located) :
    Agrees (Leaves Eq) (signalWithin lastLine r opened ts)
      (Rtlil.signalWithin lastLine m opened ts) := by
  fun_induction Rtlil.signalWithin lastLine m opened ts with
  | case1 opened l ts ih =>
    rw [signalWithin]
    exact ih
  | case2 l ts =>
    rw [signalWithin]
    exact leaves_lift _
  | case3 l ts parts =>
    rw [signalWithin]
    exact .ok ⟨rfl, rfl⟩
  | case4 l ts parts outer rest ih =>
    rw [signalWithin]
    exact ih
  | case5 opened ts h₁ h₂ ih =>
    rw [signalWithin]
    · refine (chunk_agrees lastLine h ts).advance (fun _ _ => Rtlil.chunk_length lastLine)
        fun s s' rest hlt hy he => ?_
      subst he
      cases opened with
      | nil => exact .ok ⟨rfl, rfl⟩
      | cons parts outer => exact ih (s, rest) hy parts outer
    · exact h₁
    · exact h₂

def signal (r : Registry) (ts : List Located) :
    ClockNet.Checked ParseError (Signal × List Located) :=
  signalWithin lastLine r [] ts

theorem signal_agrees (h : Wired r m) (ts : List Located) :
    Agrees (Leaves Eq) (signal lastLine r ts) (Rtlil.signal lastLine m ts) :=
  signalWithin_agrees lastLine h [] ts

/-! ## Wires -/

/-- Adds a wire of its name and width and gives it its other options then. -/
def wire (r : Registry) (attributes : Attributes) : Step Registry := fun ts => do
  let (w, ts) ← lift (wireShape lastLine { name := "", width := 1, attributes } ts)
  let (name, ts) ← lift (identifier lastLine ts)
  if (r.findWire name).isSome then lift (fail lastLine ts (.duplicateWire name))
  else do
    let (id, r) ← r.createWire name w.width
    let r ← r.updateWire id fun _ => { w with name }
    .ok (r, ts)

theorem wire_agrees (h : r.Registers m) (a : Attributes) (ts : List Located) :
    Agrees (Leaves Registers) (wire lastLine r a ts) (Rtlil.wire lastLine m a ts) := by
  unfold wire Rtlil.wire
  refine agrees_lift_bind fun shape _ => ?_
  refine agrees_lift_bind fun name _ => ?_
  dsimp only
  rw [h.findWire, Module.addWire?]
  cases hfind : m.findWire name.1 with
  | some id =>
    rw [if_pos (by simp), if_neg (by simp)]
    exact .refusal _
  | none =>
    obtain ⟨r₁, h₁, hr₁⟩ := h.createWire hfind shape.1.width
    obtain ⟨r₂, h₂, hr₂⟩ := hr₁.updateWire_addWire (f := fun _ => { shape.1 with name := name.1 })
      rfl
    rw [if_neg (by simp), if_pos rfl, h₁, bind_ok]
    dsimp only
    rw [h₂]
    exact .ok ⟨hr₂, rfl⟩

/-! ## Cells -/

def portConnection (r : Registry) : Step (String × Signal) := fun ts => do
  let (port, ts) ← lift (identifier lastLine ts)
  let (s, ts) ← signal lastLine r ts
  .ok ((port, s), ts)

theorem portConnection_agrees (h : Wired r m) (ts : List Located) :
    Agrees (Leaves Eq) (portConnection lastLine r ts) (Rtlil.portConnection lastLine m ts) := by
  unfold portConnection Rtlil.portConnection
  refine agrees_lift_bind fun port _ => ?_
  refine (signal_agrees lastLine h _).bind fun p q _ hpq => ?_
  obtain ⟨hs, hrest⟩ := hpq
  exact .ok ⟨congrArg (Prod.mk port.1) hs, hrest⟩

/-- The parameters and connections of the cell of an id. -/
def cellBody (r : Registry) (id : CellId) (ts : List Located) :
    ClockNet.Checked ParseError (Registry × List Located) :=
  match ts with
  | ⟨.word "end", _⟩ :: ts => .ok (r, ts)
  | ⟨.word "parameter", _⟩ :: ts =>
    advance ts (lift (binding lastLine (ts.dropWhile isNumberType))) fun b rest _h => do
      let r ← r.updateCell id fun c => { c with parameters := c.parameters.insert b.1 b.2 }
      cellBody r id rest
  | ⟨.word "connect", _⟩ :: ts =>
    advance ts (portConnection lastLine r ts) fun c rest _h => do
      let r ← r.updateCell id (·.setPort c.1 c.2)
      cellBody r id rest
  | [] => lift (fail lastLine [] .endOfInput)
  | t :: ts => lift (fail lastLine ts (.unexpected .cell t.token))
termination_by ts.length
decreasing_by
  · exact Nat.lt_succ_of_lt _h
  · exact Nat.lt_succ_of_lt _h

/-- The cell added last is filled in where it stands. -/
theorem cellBody_agrees {c : Cell} (h : r.Registers (m.addCell c)) (ts : List Located) :
    Agrees (Leaves fun r' c' => r'.Registers (m.addCell c')) (cellBody lastLine r m.cells.length ts)
      (Rtlil.cellBody lastLine m c ts) := by
  fun_induction Rtlil.cellBody lastLine m c ts generalizing r with
  | case1 c l ts =>
    rw [cellBody]
    exact .ok ⟨h, rfl⟩
  | case2 c l ts ih =>
    rw [cellBody]
    refine (leaves_lift _).advance
      (fun _ _ hb => Nat.lt_of_lt_of_le (binding_length lastLine hb)
        (List.dropWhile_suffix isNumberType).length_le) fun b b' rest hlt hy he => ?_
    subst he
    obtain ⟨r', he, hr'⟩ := h.updateCell_addCell
      (f := fun c => { c with parameters := c.parameters.insert b.1 b.2 }) rfl
    rw [he, bind_ok]
    exact ih (b, rest) hy hr'
  | case3 c l ts ih =>
    rw [cellBody]
    refine (portConnection_agrees lastLine (wired_of_addCell h) ts).advance
      (fun _ _ => portConnection_length lastLine) fun p p' rest hlt hy he => ?_
    subst he
    obtain ⟨r', he, hr'⟩ := h.updateCell_addCell (f := (·.setPort p.1 p.2)) rfl
    rw [he, bind_ok]
    exact ih (p, rest) hy hr'
  | case4 c =>
    rw [cellBody]
    exact .refusal _
  | case5 c t ts h₁ h₂ h₃ =>
    rw [cellBody]
    · exact .refusal _
    · exact h₁
    · exact h₂
    · exact h₃

/-- Adds a cell of its name and type and reads the rest of it into that. -/
def cell (r : Registry) (attributes : Attributes) : Step Registry := fun ts => do
  let (type, ts) ← lift (identifier lastLine ts)
  let (name, ts) ← lift (identifier lastLine ts)
  if (r.findCell name).isSome then lift (fail lastLine ts (.duplicateCell name))
  else do
    let (id, r) ← r.createCell name type
    let r ← r.updateCell id ({ · with attributes })
    cellBody lastLine r id ts

theorem cell_agrees (h : r.Registers m) (a : Attributes) (ts : List Located) :
    Agrees (Leaves Registers) (cell lastLine r a ts) (Rtlil.cell lastLine m a ts) := by
  unfold cell Rtlil.cell
  refine agrees_lift_bind fun type _ => ?_
  refine agrees_lift_bind fun name _ => ?_
  dsimp only
  rw [h.findCell]
  cases hfind : m.findCell name.1 with
  | some id =>
    rw [if_pos (by simp), if_pos (by simp)]
    exact .refusal _
  | none =>
    obtain ⟨r₁, h₁, hr₁⟩ := h.createCell hfind type.1
    obtain ⟨r₂, h₂, hr₂⟩ := hr₁.updateCell_addCell (f := ({ · with attributes := a })) rfl
    rw [if_neg (by simp), if_neg (by simp), h₁, bind_ok]
    dsimp only
    rw [h₂, bind_ok, ← bind_pure (cellBody lastLine r₂ m.cells.length name.2)]
    exact (cellBody_agrees lastLine hr₂ name.2).bind fun p q _ hpq => .ok hpq

/-! ## Modules and designs -/

def connection (r : Registry) : Step Registry := fun ts => do
  let (driven, ts) ← signal lastLine r ts
  let (driver, ts) ← signal lastLine r ts
  if driven.length ≠ driver.length then
    lift (fail lastLine ts (.widthMismatch driven.length driver.length))
  else do
    let r ← r.join driven driver
    .ok (r, ts)

theorem connection_agrees (h : r.Registers m) (ts : List Located) :
    Agrees (Leaves Registers) (connection lastLine r ts) (Rtlil.connection lastLine m ts) := by
  have hwired := wired_of_registers h
  unfold connection Rtlil.connection
  refine (signal_agrees lastLine hwired ts).bind fun p driven _ hp => ?_
  obtain rfl : p = driven := Prod.ext hp.1 hp.2
  refine (signal_agrees lastLine hwired _).bind fun q driver _ hq => ?_
  obtain rfl : q = driver := Prod.ext hq.1 hq.2
  dsimp only
  rw [Module.connect?]
  by_cases hlen : p.1.length = q.1.length
  · obtain ⟨r', he, hr'⟩ := h.join _ _ hlen
    rw [if_neg (not_not_intro hlen), if_pos hlen, he]
    exact .ok ⟨hr', rfl⟩
  · rw [if_pos hlen, if_neg hlen]
    exact .refusal _

def moduleBody (r : Registry) (pending : Attributes) (ts : List Located) :
    ClockNet.Checked ParseError (Registry × List Located) :=
  match ts with
  | ⟨.word "end", _⟩ :: ts => do
    let r ← r.renumber
    .ok (r, ts)
  | ⟨.word "attribute", _⟩ :: ts =>
    advance ts (lift (binding lastLine ts)) fun b rest _h =>
      moduleBody r (pending.insert b.1 b.2) rest
  | ⟨.word "wire", _⟩ :: ts =>
    advance ts (wire lastLine r pending ts) fun r rest _h => moduleBody r .empty rest
  | ⟨.word "cell", _⟩ :: ts =>
    advance ts (cell lastLine r pending ts) fun r rest _h => moduleBody r .empty rest
  | ⟨.word "connect", _⟩ :: ts =>
    advance ts (connection lastLine r ts) fun r rest _h => moduleBody r pending rest
  | ⟨.word "parameter", _⟩ :: ts =>
    advance ts (((), ·) <$> lift (parameterDeclaration lastLine ts)) fun _ rest _h =>
      moduleBody r pending rest
  | [] => lift (fail lastLine [] .endOfInput)
  | t :: ts => lift (fail lastLine ts (.unexpected .module t.token))
termination_by ts.length
decreasing_by all_goals exact Nat.lt_succ_of_lt _h

theorem moduleBody_agrees (h : r.Registers m) (a : Attributes) (ts : List Located) :
    Agrees (Leaves Registers) (moduleBody lastLine r a ts) (Rtlil.moduleBody lastLine m a ts) := by
  fun_induction Rtlil.moduleBody lastLine m a ts generalizing r with
  | case1 m a l ts =>
    obtain ⟨r', he, hr'⟩ := h.renumber
    rw [moduleBody, he]
    exact .ok ⟨hr', rfl⟩
  | case2 m a l ts ih =>
    rw [moduleBody]
    refine (leaves_lift _).advance (fun _ _ => binding_length lastLine)
      fun b b' rest hlt hy he => ?_
    subst he
    exact ih (b, rest) hy h
  | case3 m a l ts ih =>
    rw [moduleBody]
    exact (wire_agrees lastLine h a ts).advance (fun _ _ => wire_length lastLine)
      fun _ m' rest hlt hy hr => ih (m', rest) hy hr
  | case4 m a l ts ih =>
    rw [moduleBody]
    exact (cell_agrees lastLine h a ts).advance (fun _ _ => cell_length lastLine)
      fun _ m' rest hlt hy hr => ih (m', rest) hy hr
  | case5 m a l ts ih =>
    rw [moduleBody]
    exact (connection_agrees lastLine h ts).advance (fun _ _ => connection_length lastLine)
      fun _ m' rest hlt hy hr => ih (m', rest) hy hr
  | case6 m a l ts ih =>
    rw [moduleBody, Text.andThen_eq_bind]
    cases hdeclared : parameterDeclaration lastLine ts with
    | error e => exact .refusal e
    | ok rest =>
      change Agrees _ (advance ts (.ok ((), rest)) _) _
      rw [advance_ok (parameterDeclaration_length lastLine hdeclared)]
      exact ih rest hdeclared h
  | case7 m a =>
    rw [moduleBody]
    exact .refusal _
  | case8 m a t ts h₁ h₂ h₃ h₄ h₅ h₆ =>
    rw [moduleBody]
    · exact .refusal _
    · exact h₁
    · exact h₂
    · exact h₃
    · exact h₄
    · exact h₅
    · exact h₆

/-- Reads a module of its own and puts it in the place of one that is added without contents. -/
def module (d : Registries) (attributes : Attributes) : Step Registries := fun ts => do
  let (name, ts) ← lift (identifier lastLine ts)
  if (d.find? name).isSome then lift (fail lastLine ts (.duplicateModule name))
  else do
    let bare := (Registry.new name).withModule ({ · with attributes })
    let (r, ts) ← moduleBody lastLine bare .empty ts
    let d ← d.create r.module.name
    .ok (d.put r.module.name r, ts)

theorem module_agrees {d : Registries} {p : Design} (h : d.Registers p) (a : Attributes)
    (ts : List Located) : Agrees (Leaves Registries.Registers) (module lastLine d a ts)
      (Rtlil.module lastLine p a ts) := by
  unfold module Rtlil.module
  refine agrees_lift_bind fun name _ => ?_
  dsimp only
  rw [h.find?_eq, Option.isSome_map]
  cases hfind : d.find? name.1 with
  | some r =>
    rw [if_pos (by simp), if_pos (by simp)]
    exact .refusal _
  | none =>
    have hbare : ((Registry.new name.1).withModule ({ · with attributes := a })).Registers
        { name := name.1, attributes := a } := ⟨rfl, .nil, .nil⟩
    rw [if_neg (by simp), if_neg (by simp)]
    refine (moduleBody_agrees lastLine hbare .empty name.2).bind fun q body hbody hq => ?_
    obtain ⟨hr, hrest⟩ := hq
    -- the module has kept its name, which is new
    have hname : body.1.name = name.1 :=
      (wellFormed_moduleBody (Module.wellFormed_bare name.1 a) hbody).1
    have hnew : p.find? body.1.name = none := by
      rw [hname, h.find?_eq, hfind]
      rfl
    rw [hr.module_eq, Registries.create_ok (hname ▸ hfind), bind_ok]
    exact .ok ⟨h.add hr hnew, hrest⟩

def designBody (d : Registries) (pending : Attributes) (ts : List Located) :
    ClockNet.Checked ParseError Registries :=
  match ts with
  | [] => .ok d
  | ⟨.word "autoidx", _⟩ :: ts =>
    advance ts (lift (integer lastLine ts)) fun _ rest _h => designBody d pending rest
  | ⟨.word "attribute", _⟩ :: ts =>
    advance ts (lift (binding lastLine ts)) fun b rest _h =>
      designBody d (pending.insert b.1 b.2) rest
  | ⟨.word "module", _⟩ :: ts =>
    advance ts (module lastLine d pending ts) fun d rest _h => designBody d .empty rest
  | t :: ts => lift (fail lastLine ts (.unexpected .design t.token))
termination_by ts.length
decreasing_by all_goals exact Nat.lt_succ_of_lt _h

theorem designBody_agrees {d : Registries} {p : Design} (h : d.Registers p) (a : Attributes)
    (ts : List Located) : Agrees Registries.Registers (designBody lastLine d a ts)
      (Rtlil.designBody lastLine p a ts) := by
  fun_induction Rtlil.designBody lastLine p a ts generalizing d with
  | case1 p a =>
    rw [designBody]
    exact .ok h
  | case2 p a l ts ih =>
    rw [designBody]
    refine (leaves_lift _).advance (fun _ _ => integer_length lastLine)
      fun i i' rest hlt hy he => ?_
    subst he
    exact ih (i, rest) hy h
  | case3 p a l ts ih =>
    rw [designBody]
    refine (leaves_lift _).advance (fun _ _ => binding_length lastLine)
      fun b b' rest hlt hy he => ?_
    subst he
    exact ih (b, rest) hy h
  | case4 p a l ts ih =>
    rw [designBody]
    exact (module_agrees lastLine h a ts).advance (fun _ _ => module_length lastLine)
      fun _ p' rest hlt hy hd => ih (p', rest) hy hd
  | case5 p a t ts h₁ h₂ h₃ =>
    rw [designBody]
    · exact .refusal _
    · exact h₁
    · exact h₂
    · exact h₃

end

def parse (text : String) : ClockNet.Checked ParseError Registries := do
  let ts ← lift (tokens text.toList)
  designBody (lastLineOf ts) {} .empty ts

/-- Reading never fails an assertion, and what is read is registered by its names. -/
theorem parse_agrees (text : String) :
    Agrees Registries.Registers (parse text) (Rtlil.parse text) :=
  agrees_lift_bind fun _ _ => designBody_agrees _ .empty _ _

end ClockNet.Rtlil.Checked

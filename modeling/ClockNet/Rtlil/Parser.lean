import ClockNet.Design
import ClockNet.Rtlil.Lexer

/-! Reading a design from netlist text. Only structure is accepted: modules with wires,
cells and connections. A fault is reported on the line of the token that is to be read
next; at the end of the text, on the line of the last token. -/

namespace ClockNet.Rtlil

open Text (andThen)

/-- A step reads from the tokens that are left. -/
abbrev Step (α : Type) := List Located → Except ParseError (α × List Located)

/-- The line of the next token, or `lastLine` where no token is left. -/
def lineOf (lastLine : Nat) : List Located → Nat
  | t :: _ => t.line
  | [] => lastLine

/-- Reports a fault at the next token. -/
def fail (lastLine : Nat) (ts : List Located) (fault : Fault) : Except ParseError α :=
  .error ⟨lineOf lastLine ts, fault⟩

section
variable (lastLine : Nat)

/-! ### Single tokens -/

def identifier : Step String
  | ⟨.name n, _⟩ :: ts => .ok (n, ts)
  | [] => fail lastLine [] .endOfInput
  | t :: ts => fail lastLine (t :: ts) (.expected .name t.token)

def integer : Step Int
  | ⟨.int i, _⟩ :: ts => .ok (i, ts)
  | [] => fail lastLine [] .endOfInput
  | t :: ts => fail lastLine (t :: ts) (.expected .int t.token)

/-- An integer from 0 on; a negative one is noticed after it has been read. -/
def natural (ts : List Located) : Except ParseError (Nat × List Located) := do
  let (i, ts) ← integer lastLine ts
  if i < 0 then fail lastLine ts (.negative i) else .ok (i.toNat, ts)

def mark (c : Char) : List Located → Except ParseError (List Located)
  | ⟨.mark d, l⟩ :: ts =>
    if d = c then .ok ts else fail lastLine (⟨.mark d, l⟩ :: ts) (.expectedMark c)
  | ts => fail lastLine ts (.expectedMark c)

/-- The value of an attribute or a parameter; an integer counts as 32 bits. -/
def value : Step Value
  | ⟨.const c, _⟩ :: ts => .ok (.const c, ts)
  | ⟨.int i, _⟩ :: ts => .ok (.ofInt i, ts)
  | ⟨.text s, _⟩ :: ts => .ok (.text s, ts)
  | [] => fail lastLine [] .endOfInput
  | t :: ts => fail lastLine (t :: ts) (.expected .value t.token)

/-! ### Signals -/

/-- The end of a slice: a second index after a colon, otherwise the first once more. -/
def lastIndex (first : Int) : Step Int
  | ⟨.mark ':', _⟩ :: ts => integer lastLine ts
  | ts => .ok (first, ts)

/-- All bits of a wire, or those between the indices in brackets, of which the first is
the most significant. -/
def wireSlice (id : WireId) (w : Wire) : Step Signal
  | ⟨.mark '[', _⟩ :: ts => do
    let (first, ts) ← integer lastLine ts
    let (last, ts) ← lastIndex lastLine first ts
    let ts ← mark lastLine ']' ts
    let fault := Fault.invalidSlice first last w.name
    match w.placeOf first, w.placeOf last with
    | some high, some low =>
      if low ≤ high then .ok (.ofPlaces id low high, ts) else fail lastLine ts fault
    | _, _ => fail lastLine ts fault
  | ts => .ok (.ofWire id w.width, ts)

/-- A signal without braces: a constant, or a wire or a part of one. -/
def chunk (m : Module) : Step Signal
  | ⟨.const c, _⟩ :: ts => .ok (.ofConst c, ts)
  | ⟨.int i, _⟩ :: ts => .ok (.ofConst (.ofInt i 32), ts)
  | ⟨.name n, l⟩ :: ts =>
    match m.findWire n with
    | none => fail lastLine (⟨.name n, l⟩ :: ts) (.unknownWire n)
    | some id => wireSlice lastLine id (m.wire id) ts
  | [] => fail lastLine [] .endOfInput
  | t :: ts => fail lastLine (t :: ts) (.expected .signal t.token)

theorem integer_length {ts rest : List Located} {i : Int}
    (h : integer lastLine ts = .ok (i, rest)) : rest.length < ts.length := by
  unfold integer at h
  split at h
  · cases h; simp
  · simp [fail] at h
  · simp [fail] at h

theorem identifier_length {ts rest : List Located} {n : String}
    (h : identifier lastLine ts = .ok (n, rest)) : rest.length < ts.length := by
  unfold identifier at h
  split at h
  · cases h; simp
  · simp [fail] at h
  · simp [fail] at h

theorem natural_length {ts rest : List Located} {n : Nat}
    (h : natural lastLine ts = .ok (n, rest)) : rest.length < ts.length := by
  unfold natural at h
  cases hi : integer lastLine ts with
  | error e => simp [hi, bind, Except.bind] at h
  | ok r =>
    simp only [hi, bind, Except.bind] at h
    split at h
    · simp [fail] at h
    · cases h; exact integer_length lastLine hi

theorem value_length {ts rest : List Located} {v : Value}
    (h : value lastLine ts = .ok (v, rest)) : rest.length < ts.length := by
  unfold value at h
  split at h <;> first | (cases h; simp) | simp [fail] at h

theorem mark_length {c : Char} {ts rest : List Located}
    (h : mark lastLine c ts = .ok rest) : rest.length < ts.length := by
  unfold mark at h
  split at h
  · split at h
    · cases h; simp
    · simp [fail] at h
  · simp [fail] at h

theorem lastIndex_length {first i : Int} {ts rest : List Located}
    (h : lastIndex lastLine first ts = .ok (i, rest)) : rest.length ≤ ts.length := by
  unfold lastIndex at h
  split at h
  · exact Nat.le_succ_of_le (Nat.le_of_lt (integer_length lastLine h))
  · cases h; exact Nat.le_refl _

theorem wireSlice_length {id : WireId} {w : Wire} {s : Signal} {ts rest : List Located}
    (h : wireSlice lastLine id w ts = .ok (s, rest)) : rest.length ≤ ts.length := by
  unfold wireSlice at h
  split at h
  · rename_i l ts
    cases hi : integer lastLine ts with
    | error e => simp [hi, bind, Except.bind] at h
    | ok r =>
      cases hl : lastIndex lastLine r.1 r.2 with
      | error e => simp [hi, hl, bind, Except.bind] at h
      | ok q =>
        cases hm : mark lastLine ']' q.2 with
        | error e => simp [hi, hl, hm, bind, Except.bind] at h
        | ok ts' =>
          simp only [hi, hl, hm, bind, Except.bind] at h
          have h1 := integer_length lastLine hi
          have h2 := lastIndex_length lastLine hl
          have h3 := mark_length lastLine hm
          have : rest = ts' := by
            split at h
            · split at h
              · cases h; rfl
              · simp [fail] at h
            · simp [fail] at h
          subst this
          simp only [List.length_cons]
          omega
  · cases h; exact Nat.le_refl _

theorem chunk_length {m : Module} {s : Signal} {ts rest : List Located}
    (h : chunk lastLine m ts = .ok (s, rest)) : rest.length < ts.length := by
  unfold chunk at h
  split at h
  · cases h; simp
  · cases h; simp
  · split at h
    · simp [fail] at h
    · exact Nat.lt_succ_of_le (wireSlice_length lastLine h)
  · simp [fail] at h
  · simp [fail] at h

/-- Reads a signal within open braces. For each of them, from the innermost on, `opened`
holds the parts read so far, the last one first, which is the order from the least
significant part on. -/
def signalWithin (m : Module) (opened : List (List Signal)) (ts : List Located) :
    Except ParseError (Signal × List Located) :=
  match ts with
  | ⟨.mark '\x7b', _⟩ :: ts => signalWithin m ([] :: opened) ts
  | ⟨.mark '\x7d', l⟩ :: ts =>
    match opened with
    | [] => fail lastLine (⟨.mark '\x7d', l⟩ :: ts) (.expected .signal (.mark '\x7d'))
    | [parts] => .ok (parts.flatten, ts)
    | parts :: outer :: rest => signalWithin m ((parts.flatten :: outer) :: rest) ts
  | ts =>
    andThen (chunk lastLine m ts) fun r _h =>
      match opened with
      | [] => .ok r
      | parts :: rest => signalWithin m ((r.1 :: parts) :: rest) r.2
termination_by ts.length
decreasing_by
  · exact Nat.lt_succ_self _
  · exact Nat.lt_succ_self _
  · exact chunk_length lastLine _h

/-- A signal: a chunk, or signals in braces, most significant first. -/
def signal (m : Module) (ts : List Located) : Except ParseError (Signal × List Located) :=
  signalWithin lastLine m [] ts

theorem signalWithin_length {m : Module} {opened : List (List Signal)} {s : Signal}
    {ts rest : List Located} (h : signalWithin lastLine m opened ts = .ok (s, rest)) :
    rest.length < ts.length := by
  fun_induction signalWithin lastLine m opened ts with
  | case1 opened l ts ih => exact Nat.lt_succ_of_lt (ih h)
  | case2 l ts => simp [fail] at h
  | case3 l ts parts => cases h; exact Nat.lt_succ_self _
  | case4 l ts parts outer rest' ih => exact Nat.lt_succ_of_lt (ih h)
  | case5 opened ts _ _ ih =>
    obtain ⟨r, hr, h⟩ := Text.of_andThen_ok h
    have hc := chunk_length lastLine hr
    split at h
    · cases h; exact hc
    · exact Nat.lt_trans (ih r hr _ _ h) hc

theorem signal_length {m : Module} {s : Signal} {ts rest : List Located}
    (h : signal lastLine m ts = .ok (s, rest)) : rest.length < ts.length :=
  signalWithin_length lastLine h

/-! ### Wires -/

/-- Reads the options before a wire's name, in any order; a later one counts. -/
def wireShape (w : Wire) (ts : List Located) : Except ParseError (Wire × List Located) :=
  match ts with
  | ⟨.word "width", _⟩ :: ts =>
    andThen (natural lastLine ts) fun r _h => wireShape { w with width := r.1 } r.2
  | ⟨.word "offset", _⟩ :: ts =>
    andThen (integer lastLine ts) fun r _h => wireShape { w with offset := r.1 } r.2
  | ⟨.word "input", _⟩ :: ts =>
    andThen (natural lastLine ts) fun r _h =>
      wireShape { w with isInput := true, position := r.1 } r.2
  | ⟨.word "output", _⟩ :: ts =>
    andThen (natural lastLine ts) fun r _h =>
      wireShape { w with isOutput := true, position := r.1 } r.2
  | ⟨.word "inout", _⟩ :: ts =>
    andThen (natural lastLine ts) fun r _h =>
      wireShape { w with isInput := true, isOutput := true, position := r.1 } r.2
  | ⟨.word "upto", _⟩ :: ts => wireShape { w with upto := true } ts
  | ⟨.word "signed", _⟩ :: ts => wireShape { w with signed := true } ts
  | ts => .ok (w, ts)
termination_by ts.length
decreasing_by
  · exact Nat.lt_succ_of_lt (natural_length lastLine _h)
  · exact Nat.lt_succ_of_lt (integer_length lastLine _h)
  · exact Nat.lt_succ_of_lt (natural_length lastLine _h)
  · exact Nat.lt_succ_of_lt (natural_length lastLine _h)
  · exact Nat.lt_succ_of_lt (natural_length lastLine _h)
  · exact Nat.lt_succ_self _
  · exact Nat.lt_succ_self _

theorem wireShape_length {w w' : Wire} {ts rest : List Located}
    (h : wireShape lastLine w ts = .ok (w', rest)) : rest.length ≤ ts.length := by
  fun_induction wireShape lastLine w ts with
  | case1 _ _ _ ih | case3 _ _ _ ih | case4 _ _ _ ih | case5 _ _ _ ih =>
    obtain ⟨r, hr, h⟩ := Text.of_andThen_ok h
    exact Nat.le_trans (ih r hr h) (Nat.le_succ_of_le (Nat.le_of_lt (natural_length _ hr)))
  | case2 _ _ _ ih =>
    obtain ⟨r, hr, h⟩ := Text.of_andThen_ok h
    exact Nat.le_trans (ih r hr h) (Nat.le_succ_of_le (Nat.le_of_lt (integer_length _ hr)))
  | case6 _ _ _ ih | case7 _ _ _ ih => exact Nat.le_succ_of_le (ih h)
  | case8 => cases h; exact Nat.le_refl _

/-- A wire after its keyword; the name comes last and must be new to the module. -/
def wire (m : Module) (attributes : Attributes) : Step Module := fun ts => do
  let (w, ts) ← wireShape lastLine { name := "", width := 1, attributes } ts
  let (name, ts) ← identifier lastLine ts
  match m.addWire? { w with name } with
  | some m => .ok (m, ts)
  | none => fail lastLine ts (.duplicateWire name)

theorem wire_length {m m' : Module} {a : Attributes} {ts rest : List Located}
    (h : wire lastLine m a ts = .ok (m', rest)) : rest.length < ts.length := by
  obtain ⟨r, hr, h⟩ := Text.of_bind_ok h
  obtain ⟨q, hq, h⟩ := Text.of_bind_ok h
  dsimp only at h
  split at h
  · cases h
    exact Nat.lt_of_lt_of_le (identifier_length _ hq) (wireShape_length _ hr)
  · simp [fail] at h

/-! ### Cells -/

/-- A number type may stand before the name of a parameter; it is not kept. -/
def isNumberType (t : Located) : Bool := t.token = .word "signed" || t.token = .word "real"

def binding : Step (String × Value) := fun ts => do
  let (name, ts) ← identifier lastLine ts
  let (v, ts) ← value lastLine ts
  .ok ((name, v), ts)

theorem binding_length {b : String × Value} {ts rest : List Located}
    (h : binding lastLine ts = .ok (b, rest)) : rest.length < ts.length := by
  obtain ⟨r, hr, h⟩ := Text.of_bind_ok h
  obtain ⟨q, hq, h⟩ := Text.of_bind_ok h
  cases h
  exact Nat.lt_trans (value_length _ hq) (identifier_length _ hr)

def portConnection (m : Module) : Step (String × Signal) := fun ts => do
  let (port, ts) ← identifier lastLine ts
  let (s, ts) ← signal lastLine m ts
  .ok ((port, s), ts)

theorem portConnection_length {m : Module} {p : String × Signal} {ts rest : List Located}
    (h : portConnection lastLine m ts = .ok (p, rest)) : rest.length < ts.length := by
  obtain ⟨r, hr, h⟩ := Text.of_bind_ok h
  obtain ⟨q, hq, h⟩ := Text.of_bind_ok h
  cases h
  exact Nat.lt_trans (signal_length _ hq) (identifier_length _ hr)

/-- The parameters and connections of a cell, up to the end of the cell. -/
def cellBody (m : Module) (c : Cell) (ts : List Located) :
    Except ParseError (Cell × List Located) :=
  match ts with
  | ⟨.word "end", _⟩ :: ts => .ok (c, ts)
  | ⟨.word "parameter", _⟩ :: ts =>
    andThen (binding lastLine (ts.dropWhile isNumberType)) fun r _h =>
      cellBody m { c with parameters := c.parameters.insert r.1.1 r.1.2 } r.2
  | ⟨.word "connect", _⟩ :: ts =>
    andThen (portConnection lastLine m ts) fun r _h => cellBody m (c.setPort r.1.1 r.1.2) r.2
  | [] => fail lastLine [] .endOfInput
  | t :: ts => fail lastLine ts (.unexpected .cell t.token)
termination_by ts.length
decreasing_by
  · exact Nat.lt_succ_of_lt (Nat.lt_of_lt_of_le (binding_length _ _h)
      (List.dropWhile_suffix isNumberType).length_le)
  · exact Nat.lt_succ_of_lt (portConnection_length _ _h)

theorem cellBody_length {m : Module} {c c' : Cell} {ts rest : List Located}
    (h : cellBody lastLine m c ts = .ok (c', rest)) : rest.length < ts.length := by
  fun_induction cellBody lastLine m c ts with
  | case1 => cases h; exact Nat.lt_succ_self _
  | case2 _ _ ts ih =>
    obtain ⟨r, hr, h⟩ := Text.of_andThen_ok h
    exact Nat.lt_trans (ih r hr h) (Nat.lt_succ_of_lt (Nat.lt_of_lt_of_le (binding_length _ hr)
      (List.dropWhile_suffix isNumberType).length_le))
  | case3 _ _ ts ih =>
    obtain ⟨r, hr, h⟩ := Text.of_andThen_ok h
    exact Nat.lt_trans (ih r hr h) (Nat.lt_succ_of_lt (portConnection_length _ hr))
  | case4 => simp [fail] at h
  | case5 => simp [fail] at h

/-- A cell after its keyword; its name must be new to the module. -/
def cell (m : Module) (attributes : Attributes) : Step Module := fun ts => do
  let (type, ts) ← identifier lastLine ts
  let (name, ts) ← identifier lastLine ts
  if (m.findCell name).isSome then fail lastLine ts (.duplicateCell name)
  else do
    let (c, ts) ← cellBody lastLine m { name, type, attributes } ts
    .ok (m.addCell c, ts)

theorem cell_length {m m' : Module} {a : Attributes} {ts rest : List Located}
    (h : cell lastLine m a ts = .ok (m', rest)) : rest.length < ts.length := by
  obtain ⟨r, hr, h⟩ := Text.of_bind_ok h
  obtain ⟨q, hq, h⟩ := Text.of_bind_ok h
  dsimp only at h
  split at h
  · simp [fail] at h
  · obtain ⟨p, hp, h⟩ := Text.of_bind_ok h
    cases h
    exact Nat.lt_trans (cellBody_length _ hp)
      (Nat.lt_trans (identifier_length _ hq) (identifier_length _ hr))

/-! ### Modules -/

/-- A connection of two signals of one length after its keyword. -/
def connection (m : Module) : Step Module := fun ts => do
  let (driven, ts) ← signal lastLine m ts
  let (driver, ts) ← signal lastLine m ts
  match m.connect? driven driver with
  | some m => .ok (m, ts)
  | none => fail lastLine ts (.widthMismatch driven.length driver.length)

theorem connection_length {m m' : Module} {ts rest : List Located}
    (h : connection lastLine m ts = .ok (m', rest)) : rest.length < ts.length := by
  obtain ⟨r, hr, h⟩ := Text.of_bind_ok h
  obtain ⟨q, hq, h⟩ := Text.of_bind_ok h
  dsimp only at h
  split at h
  · cases h; exact Nat.lt_trans (signal_length _ hq) (signal_length _ hr)
  · simp [fail] at h

/-- A value where one follows. -/
def skipValue : List Located → List Located
  | ⟨.const _, _⟩ :: ts | ⟨.int _, _⟩ :: ts | ⟨.text _, _⟩ :: ts => ts
  | ts => ts

/-- The declaration of a parameter of a module, which is not kept. -/
def parameterDeclaration : List Located → Except ParseError (List Located) := fun ts => do
  let (_, ts) ← identifier lastLine ts
  .ok (skipValue ts)

theorem skipValue_length (ts : List Located) : (skipValue ts).length ≤ ts.length := by
  unfold skipValue
  split <;> simp

theorem parameterDeclaration_length {ts rest : List Located}
    (h : parameterDeclaration lastLine ts = .ok rest) : rest.length < ts.length := by
  obtain ⟨r, hr, h⟩ := Text.of_bind_ok h
  cases h
  exact Nat.lt_of_le_of_lt (skipValue_length _) (identifier_length _ hr)

/-- The contents of a module up to its end. Attributes are kept for the next wire or
cell. -/
def moduleBody (m : Module) (pending : Attributes) (ts : List Located) :
    Except ParseError (Module × List Located) :=
  match ts with
  | ⟨.word "end", _⟩ :: ts => .ok (m.renumberPorts, ts)
  | ⟨.word "attribute", _⟩ :: ts =>
    andThen (binding lastLine ts) fun r _h => moduleBody m (pending.insert r.1.1 r.1.2) r.2
  | ⟨.word "wire", _⟩ :: ts =>
    andThen (wire lastLine m pending ts) fun r _h => moduleBody r.1 .empty r.2
  | ⟨.word "cell", _⟩ :: ts =>
    andThen (cell lastLine m pending ts) fun r _h => moduleBody r.1 .empty r.2
  | ⟨.word "connect", _⟩ :: ts =>
    andThen (connection lastLine m ts) fun r _h => moduleBody r.1 pending r.2
  | ⟨.word "parameter", _⟩ :: ts =>
    andThen (parameterDeclaration lastLine ts) fun ts _h => moduleBody m pending ts
  | [] => fail lastLine [] .endOfInput
  | t :: ts => fail lastLine ts (.unexpected .module t.token)
termination_by ts.length
decreasing_by
  · exact Nat.lt_succ_of_lt (binding_length _ _h)
  · exact Nat.lt_succ_of_lt (wire_length _ _h)
  · exact Nat.lt_succ_of_lt (cell_length _ _h)
  · exact Nat.lt_succ_of_lt (connection_length _ _h)
  · exact Nat.lt_succ_of_lt (parameterDeclaration_length _ _h)

theorem moduleBody_length {m m' : Module} {a : Attributes} {ts rest : List Located}
    (h : moduleBody lastLine m a ts = .ok (m', rest)) : rest.length < ts.length := by
  fun_induction moduleBody lastLine m a ts with
  | case1 => cases h; exact Nat.lt_succ_self _
  | case2 _ _ _ ts ih =>
    obtain ⟨r, hr, h⟩ := Text.of_andThen_ok h
    exact Nat.lt_trans (ih r hr h) (Nat.lt_succ_of_lt (binding_length _ hr))
  | case3 _ _ _ ts ih =>
    obtain ⟨r, hr, h⟩ := Text.of_andThen_ok h
    exact Nat.lt_trans (ih r hr h) (Nat.lt_succ_of_lt (wire_length _ hr))
  | case4 _ _ _ ts ih =>
    obtain ⟨r, hr, h⟩ := Text.of_andThen_ok h
    exact Nat.lt_trans (ih r hr h) (Nat.lt_succ_of_lt (cell_length _ hr))
  | case5 _ _ _ ts ih =>
    obtain ⟨r, hr, h⟩ := Text.of_andThen_ok h
    exact Nat.lt_trans (ih r hr h) (Nat.lt_succ_of_lt (connection_length _ hr))
  | case6 _ _ _ ts ih =>
    obtain ⟨r, hr, h⟩ := Text.of_andThen_ok h
    exact Nat.lt_trans (ih r hr h) (Nat.lt_succ_of_lt (parameterDeclaration_length _ hr))
  | case7 => simp [fail] at h
  | case8 => simp [fail] at h

/-- A module after its keyword; its name must be new to the design. -/
def module (d : Design) (attributes : Attributes) : Step Design := fun ts => do
  let (name, ts) ← identifier lastLine ts
  if (d.find? name).isSome then fail lastLine ts (.duplicateModule name)
  else do
    let (m, ts) ← moduleBody lastLine { name, attributes } .empty ts
    .ok (d.add m, ts)

theorem module_length {d d' : Design} {a : Attributes} {ts rest : List Located}
    (h : module lastLine d a ts = .ok (d', rest)) : rest.length < ts.length := by
  obtain ⟨r, hr, h⟩ := Text.of_bind_ok h
  dsimp only at h
  split at h
  · simp [fail] at h
  · obtain ⟨q, hq, h⟩ := Text.of_bind_ok h
    cases h
    exact Nat.lt_trans (moduleBody_length _ hq) (identifier_length _ hr)

/-! ### Designs -/

/-- Modules up to the end of the text. Attributes are kept for the next module. -/
def designBody (d : Design) (pending : Attributes) (ts : List Located) :
    Except ParseError Design :=
  match ts with
  | [] => .ok d
  | ⟨.word "autoidx", _⟩ :: ts =>
    andThen (integer lastLine ts) fun r _h => designBody d pending r.2
  | ⟨.word "attribute", _⟩ :: ts =>
    andThen (binding lastLine ts) fun r _h => designBody d (pending.insert r.1.1 r.1.2) r.2
  | ⟨.word "module", _⟩ :: ts =>
    andThen (module lastLine d pending ts) fun r _h => designBody r.1 .empty r.2
  | t :: ts => fail lastLine ts (.unexpected .design t.token)
termination_by ts.length
decreasing_by
  · exact Nat.lt_succ_of_lt (integer_length _ _h)
  · exact Nat.lt_succ_of_lt (binding_length _ _h)
  · exact Nat.lt_succ_of_lt (module_length _ _h)

end

/-- The line of the last token; 1 for a text without tokens. -/
def lastLineOf (ts : List Located) : Nat := (ts.getLast?.map (·.line)).getD 1

def ofTokens (ts : List Located) : Except ParseError Design :=
  designBody (lastLineOf ts) {} .empty ts

/-- Reads a design from netlist text. -/
def parse (text : String) : Except ParseError Design := do
  ofTokens (← tokens text.toList)

end ClockNet.Rtlil

import ClockNet.Proofs.SignalRefusals

/-! # Where designs are refused

Wires, cells, modules and designs are read by loops over options and statements. Each step of a loop
leaves less than it was given, so the induction is on the number of tokens, and a statement that is
refused refuses the whole design at the same token (`readsAt_statement`, `refuses_statement`). -/

namespace ClockNet.Rtlil

variable {lastLine : Nat} {ts rest : List Located} {t : Located}

/-! ## Wires -/

section
variable (m : Module)

/-- The words with which a wire has options. -/
def isOption (token : Token) : Prop :=
  token ∈ ["width", "offset", "input", "output", "inout", "upto", "signed"].map Token.word

/-- An option has a number that is not negative, or an integer, or neither; and no other token is
one. -/
theorem wireShape_cases (t : Located) :
    (∃ set : Wire → Nat → Wire, ∀ w lastLine rest, wireShape lastLine w (t :: rest) =
      Step.andThen natural (fun n lastLine => wireShape lastLine (set w n)) lastLine rest) ∨
    (∃ set : Wire → Int → Wire, ∀ w lastLine rest, wireShape lastLine w (t :: rest) =
      Step.andThen integer (fun i lastLine => wireShape lastLine (set w i)) lastLine rest) ∨
    (∃ set : Wire → Wire, ∀ w lastLine rest,
      wireShape lastLine w (t :: rest) = wireShape lastLine (set w) rest) ∨
    ¬ isOption t.token := by
  by_cases h : isOption t.token
  · obtain ⟨token, line⟩ := t
    simp only [isOption, List.map_cons, List.map_nil, List.mem_cons, List.not_mem_nil,
      or_false] at h
    rcases h with rfl | rfl | rfl | rfl | rfl | rfl | rfl
    · exact .inl ⟨fun w n => { w with width := n }, fun _ _ _ => by
        rw [wireShape, Text.andThen_eq_bind]; rfl⟩
    · exact .inr (.inl ⟨fun w i => { w with offset := i }, fun _ _ _ => by
        rw [wireShape, Text.andThen_eq_bind]; rfl⟩)
    · exact .inl ⟨fun w n => { w with isInput := true, position := n }, fun _ _ _ => by
        rw [wireShape, Text.andThen_eq_bind]; rfl⟩
    · exact .inl ⟨fun w n => { w with isOutput := true, position := n }, fun _ _ _ => by
        rw [wireShape, Text.andThen_eq_bind]; rfl⟩
    · exact .inl ⟨fun w n => { w with isInput := true, isOutput := true, position := n },
        fun _ _ _ => by rw [wireShape, Text.andThen_eq_bind]; rfl⟩
    · exact .inr (.inr (.inl ⟨fun w => { w with upto := true }, fun _ _ _ => by rw [wireShape]⟩))
    · exact .inr (.inr (.inl ⟨fun w => { w with signed := true }, fun _ _ _ => by rw [wireShape]⟩))
  · exact .inr (.inr (.inr h))

theorem wireShape_of_not_option (w : Wire) (h : ∀ t ∈ ts.head?, ¬ isOption t.token) :
    wireShape lastLine w ts = .ok (w, ts) := by
  rw [wireShape] <;> (rintro line rest rfl; exact h _ rfl (by simp [isOption]))

theorem readsAt_wireShape (w : Wire) (ts : List Located) :
    ReadsAt (fun lastLine => wireShape lastLine w) ts := by
  induction hn : ts.length using Nat.strongRecOn generalizing w ts with
  | ind n ih =>
    subst hn
    have hstop : (∀ t ∈ ts.head?, ¬ isOption t.token) →
        ReadsAt (fun lastLine => wireShape lastLine w) ts := fun h =>
      .congr (fun _ ts' hr => wireShape_of_not_option w (hr.not_begins h (by simp [isOption])))
        (.pure fun _ _ => rfl)
    have hquiet : ∀ (e : ParseError) (w : Wire) (lastLine : Nat), e.fault ≠ .endOfInput →
        Spares e.fault (wireShape lastLine w []) := by
      intro e w lastLine hne
      rw [wireShape_of_not_option w (by simp)]
      exact ⟨rfl, hne⟩
    cases ts with
    | nil => exact hstop (by simp)
    | cons t ts =>
      rcases wireShape_cases t with ⟨set, h⟩ | ⟨set, h⟩ | ⟨set, h⟩ | h
      · refine .take (h w) (.andThen (readsAt_natural ts) (fun lastLine n rest hx => ?_)
          fun _ e _ hne n lastLine => hquiet e (set w n) lastLine hne)
        exact ih _ (Nat.lt_succ_of_lt (natural_length lastLine hx)) (set w n) rest rfl
      · refine .take (h w) (.andThen (readsAt_integer ts) (fun lastLine i rest hx => ?_)
          fun _ e _ hne i lastLine => hquiet e (set w i) lastLine hne)
        exact ih _ (Nat.lt_succ_of_lt (integer_length lastLine hx)) (set w i) rest rfl
      · exact .take (h w) (ih _ (Nat.lt_succ_self _) (set w) ts rfl)
      · exact hstop fun t' ht' => Option.some.inj ht' ▸ h

def declare (w : Wire) (name : String) : Nat → Step Module := fun lastLine ts =>
  match m.addWire? { w with name } with
  | some m => .ok (m, ts)
  | none => fail lastLine ts (.duplicateWire name)

theorem readsAt_wire (attributes : Attributes) (ts : List Located) :
    ReadsAt (fun lastLine => wire lastLine m attributes) ts := by
  refine .andThen_needed (k := fun w => Step.andThen identifier (declare m w))
    (readsAt_wireShape { name := "", width := 1, attributes } ts)
    (fun _ w rest _ => readsAt_named fun n rest _ => ?_) fun _ _ => rfl
  cases hadd : m.addWire? { w with name := n } with
  | some m' => exact .inr (.pure (x := m') fun _ _ => by simp only [declare, hadd])
  | none =>
    refine .inl ⟨.duplicateWire n, rfl, fun _ _ _ => ?_⟩
    simp only [declare, hadd]
    rfl

/-! ## Cells -/

/-- The number types before the name of a parameter. -/
def skipTypes : Nat → Step Unit := fun _ ts => .ok ((), ts.dropWhile isNumberType)

theorem dropWhile_isNumberType (h : ∀ t ∈ ts.head?, ¬ isNumberType t = true) :
    ts.dropWhile isNumberType = ts := by
  cases ts with
  | nil => rfl
  | cons t ts => exact List.dropWhile_cons_of_neg (h t rfl)

theorem readsAt_skipTypes (ts : List Located) : ReadsAt skipTypes ts where
  resumes lastLine x rest hx := by
    cases hx
    refine ⟨ts.takeWhile isNumberType, List.takeWhile_append_dropWhile.symm,
      fun lastLine rest' hr => ?_⟩
    have hrest : ∀ t ∈ rest'.head?, ¬ isNumberType t = true :=
      hr.not_begins (p := fun token => isNumberType ⟨token, 0⟩ = true) (fun t ht => ?_) (by decide)
    · unfold skipTypes
      rw [List.dropWhile_append_of_pos (List.all_eq_true.mp List.all_takeWhile),
        dropWhile_isNumberType hrest]
    · have hnot := List.head?_dropWhile_not isNumberType ts
      rw [Option.mem_def.mp ht] at hnot
      exact Bool.eq_false_iff.mp hnot
  refuses lastLine e he := nomatch he

theorem cellBody_unexpected {c : Cell} {token : Token} (hend : token ≠ .word "end")
    (hparameter : token ≠ .word "parameter") (hconnect : token ≠ .word "connect")
    (line lastLine : Nat) (rest : List Located) : cellBody lastLine m c (⟨token, line⟩ :: rest) =
      fail lastLine rest (.unexpected .cell token) := by
  rw [cellBody] <;> simp_all

theorem cellBody_nil (c : Cell) (lastLine : Nat) :
    cellBody lastLine m c [] = .error ⟨lastLine, .endOfInput⟩ := by
  rw [cellBody]
  rfl

theorem readsAt_cellBody (c : Cell) (ts : List Located) :
    ReadsAt (fun lastLine => cellBody lastLine m c) ts := by
  induction hn : ts.length using Nat.strongRecOn generalizing c ts with
  | ind n ih =>
    subst hn
    cases ts with
    | nil =>
      refine .nil (cellBody_nil m c) fun lastLine => ?_
      rw [closing, cellBody_unexpected m (by decide) (by decide) (by decide)]
      exact Fault.noConfusion
    | cons t ts =>
      obtain ⟨token, line⟩ := t
      by_cases hend : token = .word "end"
      · subst hend
        exact .take (g := fun _ ts => .ok (c, ts)) (fun _ _ => by rw [cellBody])
          (.pure fun _ _ => rfl)
      by_cases hparameter : token = .word "parameter"
      · subst hparameter
        refine .take (g := Step.andThen (Step.andThen skipTypes fun _ => binding)
          fun b lastLine =>
            cellBody lastLine m { c with parameters := c.parameters.insert b.1 b.2 })
          (fun lastLine rest => ?_) ?_
        · rw [cellBody, Text.andThen_eq_bind]
          rfl
        · refine .andThen_needed (.andThen_needed (readsAt_skipTypes ts)
            (fun _ _ rest _ => readsAt_binding rest) fun _ _ => rfl) (fun lastLine b rest hb => ?_)
            fun b lastLine => cellBody_nil m _ lastLine
          have hlength : rest.length < ts.length := Nat.lt_of_lt_of_le (binding_length lastLine hb)
            (List.dropWhile_suffix isNumberType).length_le
          exact ih _ (Nat.lt_succ_of_lt hlength) _ rest rfl
      by_cases hconnect : token = .word "connect"
      · subst hconnect
        refine .take (g := Step.andThen (portConnection · m)
          fun p lastLine => cellBody lastLine m (c.setPort p.1 p.2)) (fun lastLine rest => ?_) ?_
        · rw [cellBody, Text.andThen_eq_bind]
          rfl
        · refine .andThen_needed (readsAt_portConnection m ts) (fun lastLine p rest hp => ?_)
            fun p lastLine => cellBody_nil m _ lastLine
          exact ih _ (Nat.lt_succ_of_lt (portConnection_length lastLine hp)) _ rest rfl
      exact .refused_needed (.unexpected .cell token)
        (cellBody_unexpected m hend hparameter hconnect line) rfl
        fun lastLine => cellBody_nil m c lastLine

def cellNamed (attributes : Attributes) (type name : String) : Nat → Step Module :=
  fun lastLine ts => if (m.findCell name).isSome then fail lastLine ts (.duplicateCell name)
  else do
    let (c, ts) ← cellBody lastLine m { name, type, attributes } ts
    .ok (m.addCell c, ts)

theorem readsAt_cell (attributes : Attributes) (ts : List Located) :
    ReadsAt (fun lastLine => cell lastLine m attributes) ts := by
  refine .andThen_needed
    (k := fun type => Step.andThen identifier (cellNamed m attributes type))
    (readsAt_identifier ts) (fun _ type rest _ => readsAt_named fun name rest _ => ?_)
    fun _ _ => rfl
  by_cases hname : (m.findCell name).isSome
  · exact .inl ⟨.duplicateCell name, rfl, fun _ _ _ => if_pos hname⟩
  · refine .inr (.congr (g := Step.andThen
      (fun lastLine => cellBody lastLine m { name, type, attributes })
      fun c _ ts => .ok (m.addCell c, ts)) (fun _ _ _ => if_neg hname) ?_)
    exact .andThen (readsAt_cellBody m _ rest) (fun _ _ _ _ => .pure fun _ _ => rfl)
      fun _ _ _ hne _ _ => ⟨rfl, hne⟩

end

/-! ## Modules -/

/-- A value where one follows, which is not kept. -/
def skipOneValue : Nat → Step Unit := fun _ ts => .ok ((), skipValue ts)

def isValue : Token → Bool
  | .const _ | .int _ | .text _ => true
  | .word _ | .name _ | .mark _ => false

theorem skipValue_of_not_value (h : ∀ t ∈ ts.head?, ¬ isValue t.token = true) :
    skipValue ts = ts := by
  unfold skipValue
  split
  · exact absurd rfl (h _ rfl)
  · exact absurd rfl (h _ rfl)
  · exact absurd rfl (h _ rfl)
  · rfl

theorem readsAt_skipOneValue (ts : List Located) : ReadsAt skipOneValue ts := by
  have hstop : (∀ t ∈ ts.head?, ¬ isValue t.token = true) → ReadsAt skipOneValue ts := fun h =>
    .congr (g := fun _ ts => .ok ((), ts)) (fun _ ts' hr => by
      unfold skipOneValue
      rw [skipValue_of_not_value (hr.not_begins (p := (isValue · = true)) h (by decide))])
      (.pure fun _ _ => rfl)
  cases ts with
  | nil => exact hstop (by simp)
  | cons t ts =>
    obtain ⟨token, line⟩ := t
    cases token with
    | const _ | int _ | text _ =>
      exact .take (g := fun _ ts => .ok ((), ts)) (fun _ _ => rfl) (.pure fun _ _ => rfl)
    | word _ | name _ | mark _ =>
      exact hstop fun t ht => Option.some.inj ht ▸ Bool.false_ne_true

theorem moduleBody_nil (m : Module) (pending : Attributes) (lastLine : Nat) :
    moduleBody lastLine m pending [] = .error ⟨lastLine, .endOfInput⟩ := by
  rw [moduleBody]
  rfl

theorem moduleBody_unexpected {m : Module} {pending : Attributes} {token : Token}
    (h : ∀ w ∈ ["end", "attribute", "wire", "cell", "connect", "parameter"], token ≠ .word w)
    (line lastLine : Nat) (rest : List Located) :
    moduleBody lastLine m pending (⟨token, line⟩ :: rest) =
      fail lastLine rest (.unexpected .module token) := by
  rw [moduleBody] <;> simp_all

/-- The declaration of a parameter, as a step without a result. -/
def declaration : Nat → Step Unit := Step.andThen identifier fun _ => skipOneValue

theorem readsAt_declaration (ts : List Located) : ReadsAt declaration ts :=
  .andThen (readsAt_identifier ts) (fun _ _ rest _ => readsAt_skipOneValue rest)
    fun _ _ _ hne _ _ => ⟨rfl, hne⟩

theorem declaration_length {x : Unit} (h : declaration lastLine ts = .ok (x, rest)) :
    rest.length < ts.length := by
  obtain ⟨⟨n, rest'⟩, hn, h⟩ := Text.of_bind_ok h
  cases h
  exact Nat.lt_of_le_of_lt (skipValue_length rest') (identifier_length lastLine hn)

theorem moduleBody_parameter (m : Module) (pending : Attributes) (line lastLine : Nat)
    (rest : List Located) : moduleBody lastLine m pending (⟨.word "parameter", line⟩ :: rest) =
      declaration lastLine rest >>= fun r => moduleBody lastLine m pending r.2 := by
  rw [moduleBody, Text.andThen_eq_bind]
  unfold parameterDeclaration declaration Step.andThen skipOneValue
  cases identifier lastLine rest <;> rfl

/-- A statement of a module is read by a step, and the module goes on. -/
theorem readsAt_statement {β : Type} (next : β → Module × Attributes) {f : Nat → Step β}
    {m : Module} {pending : Attributes} (hf : ReadsAt f ts)
    (hnext : ∀ lastLine x rest, f lastLine ts = .ok (x, rest) →
      ReadsAt (fun lastLine => moduleBody lastLine (next x).1 (next x).2) rest)
    (h : ∀ lastLine rest, moduleBody lastLine m pending (t :: rest) =
      f lastLine rest >>= fun r => moduleBody lastLine (next r.1).1 (next r.1).2 r.2) :
    ReadsAt (fun lastLine => moduleBody lastLine m pending) (t :: ts) :=
  .take (g := Step.andThen f fun x lastLine => moduleBody lastLine (next x).1 (next x).2) h
    (.andThen_needed hf hnext fun x lastLine => moduleBody_nil (next x).1 (next x).2 lastLine)

theorem readsAt_moduleBody (m : Module) (pending : Attributes) (ts : List Located) :
    ReadsAt (fun lastLine => moduleBody lastLine m pending) ts := by
  induction hn : ts.length using Nat.strongRecOn generalizing m pending ts with
  | ind n ih =>
    subst hn
    cases ts with
    | nil =>
      refine .nil (moduleBody_nil m pending) fun lastLine => ?_
      rw [closing, moduleBody_unexpected (by decide)]
      exact Fault.noConfusion
    | cons t ts =>
      obtain ⟨token, line⟩ := t
      by_cases hend : token = .word "end"
      · subst hend
        exact .take (g := fun _ ts => .ok (m.renumberPorts, ts)) (fun _ _ => by rw [moduleBody])
          (.pure fun _ _ => rfl)
      by_cases hattribute : token = .word "attribute"
      · subst hattribute
        refine readsAt_statement (fun b => (m, pending.insert b.1 b.2)) (readsAt_binding ts)
          (fun lastLine _ rest hx => ?_) fun _ _ => ?_
        · exact ih _ (Nat.lt_succ_of_lt (binding_length lastLine hx)) _ _ rest rfl
        · rw [moduleBody, Text.andThen_eq_bind]
      by_cases hwire : token = .word "wire"
      · subst hwire
        refine readsAt_statement (·, .empty) (readsAt_wire m pending ts)
          (fun lastLine _ rest hx => ?_) fun _ _ => ?_
        · exact ih _ (Nat.lt_succ_of_lt (wire_length lastLine hx)) _ _ rest rfl
        · rw [moduleBody, Text.andThen_eq_bind]
      by_cases hcell : token = .word "cell"
      · subst hcell
        refine readsAt_statement (·, .empty) (readsAt_cell m pending ts)
          (fun lastLine _ rest hx => ?_) fun _ _ => ?_
        · exact ih _ (Nat.lt_succ_of_lt (cell_length lastLine hx)) _ _ rest rfl
        · rw [moduleBody, Text.andThen_eq_bind]
      by_cases hconnect : token = .word "connect"
      · subst hconnect
        refine readsAt_statement (·, pending) (readsAt_connection m ts)
          (fun lastLine _ rest hx => ?_) fun _ _ => ?_
        · exact ih _ (Nat.lt_succ_of_lt (connection_length lastLine hx)) _ _ rest rfl
        · rw [moduleBody, Text.andThen_eq_bind]
      by_cases hparameter : token = .word "parameter"
      · subst hparameter
        refine readsAt_statement (fun _ => (m, pending)) (readsAt_declaration ts)
          (fun lastLine _ rest hx => ?_) (moduleBody_parameter m pending line)
        exact ih _ (Nat.lt_succ_of_lt (declaration_length hx)) _ _ rest rfl
      refine .refused_needed (.unexpected .module token) (moduleBody_unexpected ?_ line) rfl
        fun lastLine => moduleBody_nil m pending lastLine
      simp [hend, hattribute, hwire, hcell, hconnect, hparameter]

def moduleNamed (d : Design) (attributes : Attributes) (name : String) : Nat → Step Design :=
  fun lastLine ts => if (d.find? name).isSome then fail lastLine ts (.duplicateModule name)
  else do
    let (m, ts) ← moduleBody lastLine { name, attributes } .empty ts
    .ok (d.add m, ts)

theorem readsAt_module (d : Design) (attributes : Attributes) (ts : List Located) :
    ReadsAt (fun lastLine => module lastLine d attributes) ts := by
  refine readsAt_named (k := moduleNamed d attributes) fun name rest _ => ?_
  by_cases hname : (d.find? name).isSome
  · exact .inl ⟨.duplicateModule name, rfl, fun _ _ _ => if_pos hname⟩
  · refine .inr (.congr (g := Step.andThen
      (fun lastLine => moduleBody lastLine { name, attributes } .empty)
      fun m _ ts => .ok (d.add m, ts)) (fun _ _ _ => if_neg hname) ?_)
    exact .andThen (readsAt_moduleBody _ _ rest) (fun _ _ _ _ => .pure fun _ _ => rfl)
      fun _ _ _ hne _ _ => ⟨rfl, hne⟩

/-! ## Designs -/

def designStep (d : Design) (pending : Attributes) : Nat → Step Design :=
  fun lastLine ts => (fun d => (d, [])) <$> designBody lastLine d pending ts

theorem designStep_nil (d : Design) (pending : Attributes) (lastLine : Nat) :
    designStep d pending lastLine [] = .ok (d, []) := by
  unfold designStep
  rw [designBody]
  rfl

/-- A statement of a design is read by a step, and the design goes on. -/
theorem refuses_statement {β : Type} (next : β → Design × Attributes) {f : Nat → Step β}
    {d : Design} {pending : Attributes} (hf : ReadsAt f ts)
    (hnext : ∀ lastLine x rest, f lastLine ts = .ok (x, rest) →
      Refuses (designStep (next x).1 (next x).2) rest)
    (h : ∀ lastLine rest, designBody lastLine d pending (t :: rest) =
      f lastLine rest >>= fun r => designBody lastLine (next r.1).1 (next r.1).2 r.2) :
    Refuses (designStep d pending) (t :: ts) := by
  refine .take (g := Step.andThen f fun x => designStep (next x).1 (next x).2)
    (fun lastLine rest => ?_) ?_
  · unfold designStep Step.andThen
    rw [h, map_bind]
  · refine .andThen hf hnext fun _ e _ hne x lastLine => ?_
    rw [designStep_nil]
    exact ⟨rfl, hne⟩

theorem designBody_unexpected {d : Design} {pending : Attributes} {token : Token}
    (h : ∀ w ∈ ["autoidx", "attribute", "module"], token ≠ .word w) (line lastLine : Nat)
    (rest : List Located) : designBody lastLine d pending (⟨token, line⟩ :: rest) =
      fail lastLine rest (.unexpected .design token) := by
  rw [designBody] <;> simp_all

/-- A design is refused at one of its tokens, or because these end too early. -/
theorem refuses_designBody (d : Design) (pending : Attributes) (ts : List Located) :
    Refuses (designStep d pending) ts := by
  induction hn : ts.length using Nat.strongRecOn generalizing d pending ts with
  | ind n ih =>
    subst hn
    cases ts with
    | nil =>
      intro lastLine e he
      rw [designStep_nil] at he
      cases he
    | cons t ts =>
      obtain ⟨token, line⟩ := t
      by_cases hautoidx : token = .word "autoidx"
      · subst hautoidx
        refine refuses_statement (fun _ => (d, pending)) (readsAt_integer ts)
          (fun lastLine _ rest hx => ?_) fun _ _ => ?_
        · exact ih _ (Nat.lt_succ_of_lt (integer_length lastLine hx)) _ _ rest rfl
        · rw [designBody, Text.andThen_eq_bind]
      by_cases hattribute : token = .word "attribute"
      · subst hattribute
        refine refuses_statement (fun b => (d, pending.insert b.1 b.2)) (readsAt_binding ts)
          (fun lastLine _ rest hx => ?_) fun _ _ => ?_
        · exact ih _ (Nat.lt_succ_of_lt (binding_length lastLine hx)) _ _ rest rfl
        · rw [designBody, Text.andThen_eq_bind]
      by_cases hmodule : token = .word "module"
      · subst hmodule
        refine refuses_statement ((·, .empty)) (readsAt_module d pending ts)
          (fun lastLine _ rest hx => ?_) fun _ _ => ?_
        · exact ih _ (Nat.lt_succ_of_lt (module_length lastLine hx)) _ _ rest rfl
        · rw [designBody, Text.andThen_eq_bind]
      refine .of_refused (.unexpected .design token) (fun lastLine rest => ?_) rfl
        ⟨[], idle_nil, fun lastLine => ?_⟩
      · unfold designStep
        rw [designBody_unexpected (by simp [hautoidx, hattribute, hmodule])]
        rfl
      · rw [designStep_nil]
        exact ⟨rfl, Fault.noConfusion⟩

end ClockNet.Rtlil

import ClockNet.CommandLine.Answer
import ClockNet.Proofs.PortPairs
import ClockNet.Proofs.SelectionWords
import ClockNet.Proofs.Utf8

/-! # What arguments ask for

The options of a run are given by texts of the arguments (`Mean`), the format of a file by the end
of its name (`HasExtension`), and its contents are the bytes of a text in that format (`ReadAs`). An
answer is the design in the input after a run with these options, written in the format of the
output (`Asks`). The command finds an answer exactly where there is one, and finds that one
(`asks_iff`). -/

namespace ClockNet.CommandLine

open Buffering (BufferSpec GeneratedClock Options PortPair)

/-! ## Options -/

/-- An option for a cell type and the one for its ports: neither, or a type and its ports. -/
inductive CellGiven : Option String → Option String → Option BufferSpec → Prop where
  | none : CellGiven none none none
  | cell {ports : String} {spec : BufferSpec} (hports : PortPair ports spec.output spec.input)
      (htype : spec.type ≠ "") (houtput : spec.output ≠ "") (hinput : spec.input ≠ "") :
      CellGiven (some spec.type) (some ports) (some spec)

/-- A cell type and one of its ports, with a colon between them. -/
inductive TypeAndPort : String → String × String → Prop where
  | pair {type port : String} (hcut : ':' ∉ type.toList) (htype : type ≠ "") (hport : port ≠ "") :
      TypeAndPort (type ++ ":" ++ port) (type, port)

/-- The three options for generated clocks: none of them, or a cell and a buffer type, and perhaps
an input buffer. -/
inductive ClockGiven : Option String → Option String → Option String → Option GeneratedClock →
    Prop where
  | none : ClockGiven none none none none
  | rule {cell : String} {input : Option String} {g : GeneratedClock}
      (hcell : TypeAndPort cell (g.type, g.clockPort))
      (hinput : Option.Rel TypeAndPort input g.inputBuffer) :
      ClockGiven (some cell) input (some g.bufferType) (some g)

/-- The text is a selection: words in order, each operator behind two operands. -/
def SelectionGiven (text : String) (s : Selection) : Prop :=
  ∃ texts, Text.Spaced text.toList texts ∧ texts ≠ [] ∧
    List.Forall₂ Selection.Written texts s.words ∧ Selection.OperandsReady 0 s.words

/-- The options that the texts of the arguments give. -/
structure Arguments.Mean (a : Arguments) (o : Options) : Prop where
  buffer : CellGiven a.buffer a.bufferPorts o.buffer
  pad : CellGiven a.pad a.padPorts o.pad
  selection : Option.Rel SelectionGiven a.select o.selection
  exempt : o.exempt = a.exempt
  generatedClock : ClockGiven a.clockCell a.clockInputBuffer a.clockBuffer o.generatedClock

theorem mapError_eq_ok {ε ε' α : Type} {x : Except ε α} {f : ε → ε'} {a : α} :
    x.mapError f = .ok a ↔ x = .ok a :=
  ⟨Text.of_mapError_ok, fun h => h ▸ rfl⟩

theorem bufferSpec_eq_ok {option : String} {type ports : Option String}
    {spec : Option BufferSpec} :
    bufferSpec option type ports = .ok spec ↔ CellGiven type ports spec := by
  constructor
  · intro h
    unfold bufferSpec at h
    split at h
    · cases h
      exact .none
    · obtain ⟨found, hparse, rfl⟩ := Text.map_eq_ok.mp h
      obtain ⟨rfl, hports, hne⟩ := Buffering.parse_eq_ok.mp (Text.of_mapError_ok hparse)
      exact .cell hports hne.1 hne.2.1 hne.2.2
    · cases h
  · rintro (_ | ⟨hports, htype, houtput, hinput⟩)
    · rfl
    · rw [bufferSpec, Buffering.parse_eq_ok.mpr ⟨rfl, hports, htype, houtput, hinput⟩]
      rfl

theorem typeAndPort_eq_ok {option value : String} {pair : String × String} :
    typeAndPort option value = .ok pair ↔ TypeAndPort value pair := by
  unfold typeAndPort Text.splitString
  constructor
  · intro h
    cases hsplit : Text.splitAtFirst ':' value.toList with
    | none =>
      rw [hsplit] at h
      cases h
    | some parts =>
      rw [hsplit] at h
      dsimp only [Option.map_some] at h
      split at h
      · cases h
      · rename_i hne
        cases h
        simp only [Bool.or_eq_true, decide_eq_true_eq, not_or] at hne
        obtain ⟨hcut, htext⟩ := Text.splitAtFirst_eq_some.mp hsplit
        have hvalue : value = String.ofList parts.1 ++ ":" ++ String.ofList parts.2 :=
          String.toList_injective (by simp [htext])
        rw [hvalue]
        exact .pair (by simpa using hcut) hne.1 hne.2
  · rintro ⟨hcut, htype, hport⟩
    rename_i type port
    have hsplit : Text.splitAtFirst ':' (type ++ ":" ++ port).toList =
        some (type.toList, port.toList) := Text.splitAtFirst_eq_some.mpr ⟨hcut, by simp⟩
    rw [hsplit]
    simp [htype, hport]

/-- What may be left out is read where it is there. -/
theorem mapM_eq_ok {ε α β : Type} {f : α → Except ε β} {R : α → β → Prop}
    (hf : ∀ a b, f a = .ok b ↔ R a b) {x : Option α} {y : Option β} :
    x.mapM f = .ok y ↔ Option.Rel R x y := by
  constructor
  · intro h
    cases x with
    | none =>
      cases h
      exact .none
    | some a =>
      obtain ⟨b, hb, rfl⟩ := Text.map_eq_ok.mp h
      exact .some ((hf a b).mp hb)
  · intro h
    cases h with
    | none => rfl
    | some hab => exact Text.map_eq_ok.mpr ⟨_, (hf _ _).mpr hab, rfl⟩

theorem generatedClock_eq (a : Arguments) :
    a.generatedClock = match a.clockCell, a.clockBuffer with
      | some cell, some bufferType => do
        let pair ← typeAndPort "gclk-cell" cell
        let inputBuffer ← a.clockInputBuffer.mapM (typeAndPort "gclk-ibuf")
        .ok (some { type := pair.1, clockPort := pair.2, inputBuffer, bufferType })
      | none, none => if a.clockInputBuffer.isNone then .ok none else .error .incompleteClock
      | _, _ => .error .incompleteClock := by
  unfold Arguments.generatedClock
  cases a.clockInputBuffer <;> rfl

theorem generatedClock_eq_ok {a : Arguments} {rule : Option GeneratedClock} :
    a.generatedClock = .ok rule ↔
      ClockGiven a.clockCell a.clockInputBuffer a.clockBuffer rule := by
  rw [generatedClock_eq]
  generalize a.clockCell = cell, a.clockInputBuffer = input, a.clockBuffer = buffer
  constructor
  · intro h
    split at h
    · rename_i bufferType
      obtain ⟨pair, hpair, h⟩ := Text.of_bind_ok h
      obtain ⟨inputBuffer, hinput, h⟩ := Text.of_bind_ok h
      cases h
      have hbehind := (mapM_eq_ok (f := typeAndPort "gclk-ibuf")
        fun _ _ => typeAndPort_eq_ok).mp hinput
      exact .rule (g := ⟨pair.1, pair.2, inputBuffer, bufferType⟩) (typeAndPort_eq_ok.mp hpair)
        hbehind
    · split at h
      · rename_i hnone
        cases h
        rw [Option.isNone_iff_eq_none.mp hnone]
        exact .none
      · cases h
    · cases h
  · intro h
    cases h with
    | none => rfl
    | rule hcell hinput =>
      have hbehind := (mapM_eq_ok (f := typeAndPort "gclk-ibuf")
        fun _ _ => typeAndPort_eq_ok).mpr hinput
      dsimp only
      rw [typeAndPort_eq_ok.mpr hcell, hbehind]
      rfl

theorem options_eq_ok {a : Arguments} {o : Options} : a.options = .ok o ↔ a.Mean o := by
  have hread : a.options = (do
      let buffer ← bufferSpec "buf" a.buffer a.bufferPorts
      let pad ← bufferSpec "inpad" a.pad a.padPorts
      let selection ← a.select.mapM fun text => (Selection.parse text).mapError .selection
      let generatedClock ← a.generatedClock
      .ok { buffer, pad, selection, exempt := a.exempt, generatedClock }) := by
    unfold Arguments.options
    cases a.select <;> rfl
  have hselection : ∀ text s,
      (Selection.parse text).mapError Failure.selection = .ok s ↔ SelectionGiven text s :=
    fun text s => mapError_eq_ok.trans Selection.parse_eq_ok
  rw [hread]
  constructor
  · intro h
    obtain ⟨buffer, hbuffer, h⟩ := Text.of_bind_ok h
    obtain ⟨pad, hpad, h⟩ := Text.of_bind_ok h
    obtain ⟨selection, hselect, h⟩ := Text.of_bind_ok h
    obtain ⟨generatedClock, hclock, h⟩ := Text.of_bind_ok h
    cases h
    exact ⟨bufferSpec_eq_ok.mp hbuffer, bufferSpec_eq_ok.mp hpad,
      (mapM_eq_ok hselection).mp hselect, rfl, generatedClock_eq_ok.mp hclock⟩
  · rintro ⟨hbuffer, hpad, hselect, hexempt, hclock⟩
    rw [bufferSpec_eq_ok.mpr hbuffer, bufferSpec_eq_ok.mpr hpad,
      (mapM_eq_ok hselection).mpr hselect, generatedClock_eq_ok.mpr hclock, ← hexempt]
    rfl

/-! ## Formats -/

/-- The name of a file ends in a point and the extension, with something before the point. The name
is the last one between slashes, where an empty name and a single point lead nowhere. -/
def HasExtension (path extension : String) : Prop :=
  ∃ stem : List Char, stem ≠ [] ∧ '.' ∉ extension.toList ∧
    stem ++ '.' :: extension.toList ≠ ['.', '.'] ∧
    ((path.toList.splitOn '/').filter fun name => name ≠ [] ∧ name ≠ ['.']).getLast? =
      some (stem ++ '.' :: extension.toList)

theorem pieces_eq_splitOn (separator : Char) (text : List Char) :
    Text.pieces (· == separator) text = text.splitOn separator := by
  unfold List.splitOn
  induction text with
  | nil => rfl
  | cons c rest ih =>
    rw [Text.pieces, ih, List.splitOnP_cons_eq_if_modifyHead]
    split
    · rfl
    · cases hrest : rest.splitOnP (· == separator) with
      | nil => exact absurd hrest (List.splitOnP_ne_nil _ _)
      | cons piece more => rfl

theorem names_eq (path : String) : Path.names path =
    ((path.toList.splitOn '/').filter fun name => name ≠ [] ∧ name ≠ ['.']).map String.ofList := by
  rw [Path.names, Path.steps, pieces_eq_splitOn, List.filter_map, List.filter_filter]
  congr 1
  refine List.filter_congr fun name _ => ?_
  have hpoint : String.ofList name = "." ↔ name = ['.'] := by
    rw [← String.toList_inj, String.toList_ofList]
    rfl
  simp [hpoint, Bool.and_comm]

/-- The last point of a name is the first one of the reversed name. -/
theorem extension?_eq (path : String) : Path.extension? path =
    (Path.names path).getLast?.bind fun name =>
      if name = ".." then none
      else (Text.splitAtFirst '.' name.toList.reverse).bind fun parts =>
        if parts.2 = [] then none else some (String.ofList parts.1.reverse) := by
  unfold Path.extension? Text.splitAtFirst
  cases (Path.names path).getLast? with
  | none => rfl
  | some name =>
    dsimp only [Option.bind_some]
    rcases name.toList.reverse.span (· != '.') with ⟨reversed, _ | ⟨_, _ | _⟩⟩ <;> rfl

theorem extension?_eq_some {path extension : String} :
    Path.extension? path = some extension ↔ HasExtension path extension := by
  unfold HasExtension
  rw [extension?_eq, names_eq, List.getLast?_map]
  cases ((path.toList.splitOn '/').filter fun name => name ≠ [] ∧ name ≠ ['.']).getLast? with
  | none => simp
  | some name =>
    have hparent : String.ofList name = ".." ↔ name = ['.', '.'] := by
      rw [← String.toList_inj, String.toList_ofList]
      rfl
    dsimp only [Option.map_some, Option.bind_some]
    rw [String.toList_ofList]
    constructor
    · intro h
      split at h
      · cases h
      · rename_i hname
        obtain ⟨⟨reversed, stem⟩, hparts, h⟩ := Option.bind_eq_some_iff.mp h
        obtain ⟨hpoint, hreverse⟩ := Text.splitAtFirst_eq_some.mp hparts
        have he : name = stem.reverse ++ '.' :: reversed.reverse := by
          rw [← List.reverse_reverse name, hreverse]
          simp
        dsimp only at h
        split at h
        · cases h
        · rename_i hstem
          cases h
          refine ⟨stem.reverse, by simpa using hstem, by simpa using hpoint, ?_, by simp [he]⟩
          rw [String.toList_ofList, ← he]
          exact fun h => hname (hparent.mpr h)
    · rintro ⟨stem, hstem, hpoint, hne, he⟩
      obtain rfl := Option.some.inj he
      rw [if_neg fun h => hne (hparent.mp h)]
      have hparts : Text.splitAtFirst '.' (stem ++ '.' :: extension.toList).reverse =
          some (extension.toList.reverse, stem.reverse) :=
        Text.splitAtFirst_eq_some.mpr ⟨by simpa using hpoint, by simp⟩
      rw [hparts]
      simp [hstem]

/-- A design is what a file of this name with these contents holds. -/
inductive ReadAs : String → List UInt8 → Design → Prop where
  | json {path : String} {text : List Char} {j : Json} {d : Design}
      (hpath : HasExtension path "json") (hj : Json.parse? text = some j)
      (hd : NetlistJson.importDesign j = .ok d) : ReadAs path (Text.encode text) d
  | rtlil {path text : String} {d : Design} (hpath : HasExtension path "il")
      (hd : Rtlil.parse text = .ok d) : ReadAs path (Text.encode text.toList) d

/-- A text is what a design is in the format of a file of this name. -/
inductive WrittenAs : String → Design → String → Prop where
  | json {path : String} {d : Design} (hpath : HasExtension path "json") :
      WrittenAs path d (NetlistJson.exportDesign d).pretty
  | rtlil {path : String} {d : Design} (hpath : HasExtension path "il") :
      WrittenAs path d (Rtlil.print d)

theorem ofPath_eq_ok {path : String} {format : Format} : Format.ofPath path = .ok format ↔
    HasExtension path (match format with | .json => "json" | .rtlil => "il") := by
  rw [← extension?_eq_some]
  unfold Format.ofPath
  constructor
  · intro h
    split at h
    · cases h
      assumption
    · cases h
      assumption
    · cases h
  · intro h
    rw [h]
    cases format <;> rfl

theorem readAs_iff {path : String} {contents : List UInt8} {d : Design} :
    ReadAs path contents d ↔
      ∃ format, Format.ofPath path = .ok format ∧ format.read path contents = .ok d := by
  constructor
  · rintro (⟨hpath, hj, hd⟩ | ⟨hpath, hd⟩)
    · refine ⟨.json, ofPath_eq_ok.mpr hpath, mapError_eq_ok.mpr ?_⟩
      rw [NetlistJson.ofBytes, Text.decode?_eq_some.mpr rfl]
      dsimp only
      rw [hj]
      exact mapError_eq_ok.mpr hd
    · refine ⟨.rtlil, ofPath_eq_ok.mpr hpath, ?_⟩
      rw [Format.read, Text.decode?_eq_some.mpr rfl]
      dsimp only
      rw [String.ofList_toList]
      exact mapError_eq_ok.mpr hd
  · rintro ⟨format, hformat, h⟩
    have hpath := ofPath_eq_ok.mp hformat
    cases format with
    | json =>
      have h := mapError_eq_ok.mp h
      unfold NetlistJson.ofBytes at h
      split at h
      · cases h
      · rename_i text htext
        split at h
        · cases h
        · rename_i j hj
          rw [Text.decode?_eq_some.mp htext]
          exact .json hpath hj (mapError_eq_ok.mp h)
    | rtlil =>
      unfold Format.read at h
      dsimp only at h
      split at h
      · cases h
      · rename_i text htext
        rw [Text.decode?_eq_some.mp htext, ← String.toList_ofList (l := text)]
        exact .rtlil hpath (mapError_eq_ok.mp h)

theorem writtenAs_iff {path text : String} {d : Design} : WrittenAs path d text ↔
    ∃ format, Format.ofPath path = .ok format ∧ text = format.print d := by
  constructor
  · rintro (hpath | hpath)
    · exact ⟨.json, ofPath_eq_ok.mpr hpath, rfl⟩
    · exact ⟨.rtlil, ofPath_eq_ok.mpr hpath, rfl⟩
  · rintro ⟨format, hformat, rfl⟩
    have hpath := ofPath_eq_ok.mp hformat
    cases format with
    | json => exact .json hpath
    | rtlil => exact .rtlil hpath

/-! ## Answers -/

/-- The text that the arguments ask for: the design in the input after a run with the options that
are given, in the format of the output, or in that of the input where there is no output. -/
def Asks (a : Arguments) (contents : List UInt8) (text : String) : Prop :=
  ∃ o d p, a.Mean o ∧ ReadAs a.input contents d ∧ Buffering.run o d = .ok p ∧
    WrittenAs (a.output.getD a.input) p.design text

theorem ofArguments_eq (a : Arguments) : Request.ofArguments a = (do
    let options ← a.options
    let inputFormat ← Format.ofPath a.input
    let outputFormat ← Format.ofPath (a.output.getD a.input)
    .ok { options, input := a.input, inputFormat, output := a.output, outputFormat }) := by
  unfold Request.ofArguments
  cases a.options with
  | error f => rfl
  | ok o => cases a.output <;> cases h : Format.ofPath a.input <;> simp [bind, Except.bind, h]

theorem paths_ofArguments {a : Arguments} {r : Request} (h : Request.ofArguments a = .ok r) :
    r.input = a.input ∧ r.output = a.output := by
  rw [ofArguments_eq] at h
  obtain ⟨_, -, h⟩ := Text.of_bind_ok h
  obtain ⟨_, -, h⟩ := Text.of_bind_ok h
  obtain ⟨_, -, h⟩ := Text.of_bind_ok h
  cases h
  exact ⟨rfl, rfl⟩

/-- The command finds the text that is asked for, and no other one. -/
theorem asks_iff {a : Arguments} {contents : List UInt8} {text : String} :
    Asks a contents text ↔
      ∃ r, Request.ofArguments a = .ok r ∧ r.answer contents = .ok text := by
  constructor
  · rintro ⟨o, d, p, ho, hd, hp, htext⟩
    obtain ⟨inputFormat, hinput, hread⟩ := readAs_iff.mp hd
    obtain ⟨outputFormat, houtput, rfl⟩ := writtenAs_iff.mp htext
    refine ⟨{ options := o, input := a.input, inputFormat, output := a.output, outputFormat },
      ?_, ?_⟩
    · rw [ofArguments_eq, options_eq_ok.mpr ho, hinput, houtput]
      rfl
    · rw [Request.answer, hread]
      show (Buffering.run o d).mapError _ >>= _ = _
      rw [hp]
      rfl
  · rintro ⟨r, hr, hanswer⟩
    rw [ofArguments_eq] at hr
    obtain ⟨o, ho, hr⟩ := Text.of_bind_ok hr
    obtain ⟨inputFormat, hinput, hr⟩ := Text.of_bind_ok hr
    obtain ⟨outputFormat, houtput, hr⟩ := Text.of_bind_ok hr
    cases hr
    obtain ⟨d, hd, hanswer⟩ := Text.of_bind_ok hanswer
    obtain ⟨p, hp, hanswer⟩ := Text.of_bind_ok hanswer
    cases hanswer
    exact ⟨o, d, p, options_eq_ok.mp ho, readAs_iff.mpr ⟨_, hinput, hd⟩, mapError_eq_ok.mp hp,
      writtenAs_iff.mpr ⟨_, houtput, rfl⟩⟩

end ClockNet.CommandLine

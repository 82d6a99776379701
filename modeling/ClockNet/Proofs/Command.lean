import ClockNet.CommandLine.Request
import ClockNet.Proofs.Arguments
import Mathlib

/-! # All or nothing

A command writes nothing before it has the whole answer, and it has the answer only when the whole
input has been read, checked and worked on (`execute_eq`). So on any host whose operations do what
is documented of them (`Host.Lawful`), a failure other than one of the output leaves the state as it
was, and a success leaves the answer to what the input was before, also where the output takes the
place of the input (`execute_all_or_nothing`). Files that are kept in a list are such a host
(`World.lawful`). -/

namespace ClockNet.CommandLine

namespace Disk
variable {d : Disk} {place : Place} {contents : List UInt8}

/-! ## A file after it has been written -/

theorem find?_set (d : Disk) (place : Place) (contents : List UInt8) (other : Place) :
    (d.set place contents).find? other =
      if other = place then some contents else d.find? other := by
  unfold find? set
  rw [List.find?_cons]
  by_cases ho : other = place
  · subst ho
    simp
  · have hne : (place == other) = false := by simpa using Ne.symm ho
    rw [hne, if_neg ho]
    dsimp only
    rw [List.find?_filter]
    congr 2
    funext f
    by_cases hf : f.1 = other
    · simp [hf, ho]
    · simp [hf]

theorem set_set (d : Disk) (place : Place) (old contents : List UInt8) :
    (d.set place old).set place contents = d.set place contents := by
  unfold set
  simp [List.filter_filter]

theorem hasDirectory_iff {d : Disk} {p : Place} : d.hasDirectory p = true ↔
    p.isAbove = true ∨ ∃ f ∈ d.files, p <+: f.1 ∧ f.1 ≠ p := by
  unfold hasDirectory
  rw [Bool.or_eq_true, List.any_eq_true]
  simp only [Bool.and_eq_true, List.isPrefixOf_iff_prefix, bne_iff_ne]

/-- Writing a file makes directories, and unmakes none. -/
theorem hasDirectory_set {p : Place} : (d.set place contents).hasDirectory p = true ↔
    d.hasDirectory p = true ∨ (p <+: place ∧ place ≠ p) := by
  rw [hasDirectory_iff, hasDirectory_iff]
  unfold set
  simp only [List.mem_cons, List.mem_filter, bne_iff_ne]
  constructor
  · rintro (habove | ⟨f, rfl | ⟨hf, -⟩, hp⟩)
    · exact .inl (.inl habove)
    · exact .inr hp
    · exact .inl (.inr ⟨f, hf, hp⟩)
  · rintro ((habove | ⟨f, hf, hp⟩) | hp)
    · exact .inl habove
    · by_cases he : f.1 = place
      · exact .inr ⟨_, .inl rfl, he ▸ hp⟩
      · exact .inr ⟨f, .inr ⟨hf, he⟩, hp⟩
    · exact .inr ⟨_, .inl rfl, hp⟩

theorem enter_set {directory p : Place} {name : String} (h : d.enter directory name = .ok p) :
    (d.set place contents).enter directory name = .ok p := by
  unfold enter at h ⊢
  cases hs : directory.step name with
  | error => rw [hs] at h; cases h
  | ok next =>
    rw [hs] at h
    have h' : (if d.hasDirectory next then .ok next else
      .error (if (d.find? next).isSome then FileFault.notDirectory else .missing)) =
        Except.ok p := h
    split at h'
    · rename_i hdir
      cases h'
      exact if_pos (hasDirectory_set.mpr (.inl hdir))
    · cases h'

theorem foldlM_enter_set {names : List String} {directory p : Place}
    (h : names.foldlM d.enter directory = .ok p) :
    names.foldlM (d.set place contents).enter directory = .ok p := by
  induction names generalizing directory with
  | nil => exact h
  | cons name rest ih =>
    rw [List.foldlM_cons] at h ⊢
    cases hn : d.enter directory name with
    | error => rw [hn] at h; cases h
    | ok next =>
      rw [hn] at h
      rw [enter_set hn]
      exact ih h

theorem directoryOf_set {path : String} {directory : Place}
    (h : d.directoryOf path = .ok directory) :
    (d.set place contents).directoryOf path = .ok directory := by
  unfold directoryOf at h ⊢
  split at h
  · cases h
  · split at h
    · cases h
    · rename_i hempty hlong
      rw [if_neg hempty, if_neg hlong]
      exact foldlM_enter_set h

theorem target_eq_ok {path : String} (h : d.target path = .ok place) :
    ∃ directory, d.directoryOf path = .ok directory ∧ Path.endsInSlash path = false ∧
      placeIn directory path = .ok place ∧ d.hasDirectory place = false := by
  obtain ⟨directory, hdirectory, h⟩ := Text.of_bind_ok h
  split at h
  · cases h
  · rename_i hslash
    obtain ⟨place', hplace, h⟩ := Text.of_bind_ok h
    split at h
    · cases h
    · rename_i hfile
      cases h
      exact ⟨directory, hdirectory, Bool.eq_false_iff.mpr hslash, hplace,
        Bool.eq_false_iff.mpr hfile⟩

/-- What a file has been set to is what is read from its path. -/
theorem read_set {path : String} (h : d.target path = .ok place) :
    (d.set place contents).read path = .ok contents := by
  obtain ⟨directory, hdirectory, hslash, hplace, hfile⟩ := target_eq_ok h
  have hfile' : (d.set place contents).hasDirectory place = false := by
    rw [Bool.eq_false_iff, ne_eq, hasDirectory_set]
    rintro (hdir | ⟨-, hne⟩)
    · exact absurd hdir (Bool.eq_false_iff.mp hfile)
    · exact hne rfl
  unfold read
  rw [directoryOf_set hdirectory]
  show (placeIn directory path >>= _) = _
  rw [hplace]
  show (if (d.set place contents).hasDirectory place then _ else _) = _
  rw [hfile', if_neg Bool.false_ne_true, find?_set, if_pos rfl]
  exact if_neg (by rw [hslash]; exact Bool.false_ne_true)

end Disk

/-! ## Hosts -/

/-- What a state has that a command may change: the contents of the files that are there, and what
has come out on the standard output. What is open is one of the files. -/
structure View (σ η φ : Type) where
  file : σ → φ → Option (List UInt8)
  stdout : σ → List UInt8
  opened : η → φ

section
variable {σ ε η φ : Type}

/-- What is documented of the operations where they do not fail. -/
structure Host.Lawful (host : Host ε η (StateM σ)) (v : View σ η φ) : Prop where
  /-- Reading changes nothing, whether it fails or not. -/
  read_state : ∀ path s, (host.read path s).2 = s
  /-- Creating a file leaves it empty, whether it was there or not, and touches no other one. -/
  create_ok : ∀ path s file s', host.create path s = (.ok file, s') →
    v.file s' (v.opened file) = some [] ∧
      (∀ f ≠ v.opened file, v.file s' f = v.file s f) ∧ v.stdout s' = v.stdout s
  /-- Writing puts all of a text behind what the file has. -/
  write_ok : ∀ file text s s' old, host.write file text s = (.ok (), s') →
    v.file s (v.opened file) = some old →
    v.file s' (v.opened file) = some (old ++ Text.encode text.toList) ∧
      (∀ f ≠ v.opened file, v.file s' f = v.file s f) ∧ v.stdout s' = v.stdout s
  /-- A path that a file has been created under leads to it. -/
  read_created : ∀ path s file s₁ text s₂ contents, host.create path s = (.ok file, s₁) →
    host.write file text s₁ = (.ok (), s₂) → v.file s₂ (v.opened file) = some contents →
    (host.read path s₂).1 = .ok contents
  /-- Printing puts all of a text behind what has come out. -/
  print_ok : ∀ text s s', host.print text s = (.ok (), s') →
    v.stdout s' = v.stdout s ++ Text.encode text.toList ∧ ∀ f, v.file s' f = v.file s f

/-- How a command ends, and the state that it leaves. -/
def Host.execute (host : Host ε η (StateM σ)) (a : Arguments) (s : σ) :
    Except (Trouble ε) Unit × σ :=
  (perform host a).run s

variable {host : Host ε η (StateM σ)} {v : View σ η φ}

/-- A command takes its steps in one order, and the state is what it was up to the last one. -/
theorem execute_eq (h : host.Lawful v) (a : Arguments) (s : σ) : host.execute a s =
    match Request.ofArguments a with
    | .error f => (.error (.request f), s)
    | .ok r =>
      match (host.read r.input s).1 with
      | .error fault => (.error (.input r.inputFormat r.input fault), s)
      | .ok contents =>
        match r.answer contents with
        | .error f => (.error (.request f), s)
        | .ok text => (deliver host r.output text).run s := by
  unfold Host.execute perform
  cases Request.ofArguments a with
  | error f => rfl
  | ok r =>
    have hread : (host.read r.input).run s = ((host.read r.input s).1, s) :=
      Prod.ext rfl (h.read_state r.input s)
    dsimp only
    rw [StateT.run_bind, hread]
    cases (host.read r.input s).1 with
    | error fault => rfl
    | ok contents =>
      show ((match r.answer contents with
        | .error f => pure (Except.error (Trouble.request f))
        | .ok text => deliver host r.output text) : StateM σ _).run s = _
      dsimp only
      cases r.answer contents <;> rfl

/-! ## Deliveries -/

/-- The destination has a text and nothing but it, and nothing else has changed. -/
def Holds (host : Host ε η (StateM σ)) (v : View σ η φ) (output : Option String) (text : String)
    (s s' : σ) : Prop :=
  match output with
  | none => v.stdout s' = v.stdout s ++ Text.encode text.toList ∧ ∀ f, v.file s' f = v.file s f
  | some path => v.stdout s' = v.stdout s ∧
    (host.read path s').1 = .ok (Text.encode text.toList) ∧
    ∃ file s₁, host.create path s = (.ok file, s₁) ∧
      v.file s' (v.opened file) = some (Text.encode text.toList) ∧
      ∀ f ≠ v.opened file, v.file s' f = v.file s f

/-- A delivery fails at the destination only. -/
theorem deliver_error {output : Option String} {text : String} {s : σ} {t : Trouble ε}
    (h : ((deliver host output text).run s).1 = .error t) :
    ∃ path fault, t = .output path fault := by
  have hmap : ∀ {x : Except ε Unit} {path : Option String},
      x.mapError (Trouble.output path) = .error t → ∃ path fault, t = .output path fault := by
    intro x path hx
    cases x with
    | ok => cases hx
    | error fault =>
      cases hx
      exact ⟨path, fault, rfl⟩
  cases output with
  | none => exact hmap h
  | some path =>
    unfold deliver at h
    dsimp only at h
    rw [StateT.run_bind] at h
    cases hcreate : (host.create path).run s with
    | mk result s₁ =>
      rw [hcreate] at h
      cases result with
      | error fault =>
        cases h
        exact ⟨path, fault, rfl⟩
      | ok file => exact hmap h

/-- A delivery that does not fail leaves the text at the destination. -/
theorem deliver_ok (hl : host.Lawful v) {output : Option String} {text : String} {s : σ}
    (h : ((deliver host output text).run s).1 = .ok ()) :
    Holds host v output text s ((deliver host output text).run s).2 := by
  cases output with
  | none =>
    have hprint : host.print text s = (.ok (), (host.print text s).2) :=
      Prod.ext (Text.of_mapError_ok h) rfl
    exact hl.print_ok text s _ hprint
  | some path =>
    unfold deliver at h ⊢
    dsimp only at h ⊢
    rw [StateT.run_bind] at h ⊢
    cases hcreate : (host.create path).run s with
    | mk result s₁ =>
      rw [hcreate] at h
      cases result with
      | error fault => cases h
      | ok file =>
        have hwrite : host.write file text s₁ = (.ok (), (host.write file text s₁).2) :=
          Prod.ext (Text.of_mapError_ok h) rfl
        obtain ⟨hempty, hothers, hstdout⟩ := hl.create_ok path s file s₁ hcreate
        obtain ⟨hfile, hothers', hstdout'⟩ := hl.write_ok file text s₁ _ [] hwrite hempty
        refine ⟨hstdout'.trans hstdout, ?_, file, s₁, hcreate, hfile, ?_⟩
        · exact hl.read_created path s file s₁ text _ _ hcreate hwrite hfile
        · exact fun f hf => (hothers' f hf).trans (hothers f hf)

/-! ## Commands -/

/-- The answer to what the input of the arguments holds. -/
def Answers (host : Host ε η (StateM σ)) (a : Arguments) (s : σ) (text : String) : Prop :=
  ∃ contents, (host.read a.input s).1 = .ok contents ∧ Asks a contents text

theorem answers_iff {a : Arguments} {s : σ} {text : String} : Answers host a s text ↔
    ∃ r contents, Request.ofArguments a = .ok r ∧ (host.read r.input s).1 = .ok contents ∧
      r.answer contents = .ok text := by
  constructor
  · rintro ⟨contents, hread, hasks⟩
    obtain ⟨r, hr, hanswer⟩ := asks_iff.mp hasks
    exact ⟨r, contents, hr, (paths_ofArguments hr).1 ▸ hread, hanswer⟩
  · rintro ⟨r, contents, hr, hread, hanswer⟩
    exact ⟨contents, (paths_ofArguments hr).1 ▸ hread, asks_iff.mpr ⟨r, hr, hanswer⟩⟩

/-- What a command can do: fail where there is no answer, with the state as it was, or deliver the
only answer. -/
theorem execute_cases (hl : host.Lawful v) (a : Arguments) (s : σ) :
    (∃ t, host.execute a s = (.error t, s) ∧ (∀ path fault, t ≠ .output path fault) ∧
      ∀ text, ¬ Answers host a s text) ∨
    ∃ text, (∀ other, Answers host a s other ↔ other = text) ∧
      host.execute a s = (deliver host a.output text).run s := by
  have he := execute_eq hl a s
  cases hr : Request.ofArguments a with
  | error f =>
    rw [hr] at he
    exact .inl ⟨_, he, nofun, by simp [answers_iff, hr]⟩
  | ok r =>
    rw [hr] at he
    dsimp only at he
    cases hread : (host.read r.input s).1 with
    | error fault =>
      rw [hread] at he
      exact .inl ⟨_, he, nofun, by simp [answers_iff, hr, hread]⟩
    | ok contents =>
      rw [hread] at he
      dsimp only at he
      cases htext : r.answer contents with
      | error f =>
        rw [htext] at he
        exact .inl ⟨_, he, nofun, by simp [answers_iff, hr, hread, htext]⟩
      | ok text =>
        rw [htext, (paths_ofArguments hr).2] at he
        exact .inr ⟨text, by simp [answers_iff, hr, hread, htext, eq_comm], he⟩

/-- A command that fails other than at its output has changed nothing, and it does not fail so
exactly where there is an answer to what its input holds. If it does not fail at all, its
destination holds the answer to what the input was before, which is the only one. -/
theorem execute_all_or_nothing (hl : host.Lawful v) (a : Arguments) (s : σ) :
    (∀ t, (host.execute a s).1 = .error t → (∀ path fault, t ≠ .output path fault) →
      (host.execute a s).2 = s) ∧
    ((∃ text, Answers host a s text) ↔
      ∀ t, (host.execute a s).1 = .error t → ∃ path fault, t = .output path fault) ∧
    ((host.execute a s).1 = .ok () →
      ∃ text, (∀ other, Answers host a s other ↔ other = text) ∧
        Holds host v a.output text s (host.execute a s).2) := by
  obtain ⟨t, he, hplace, hnone⟩ | ⟨text, honly, he⟩ := execute_cases hl a s
  · -- a failure before the output
    rw [he]
    refine ⟨fun _ _ _ => rfl, iff_of_false (fun ⟨text, h⟩ => hnone text h) fun h => ?_, nofun⟩
    obtain ⟨path, fault, ht⟩ := h t rfl
    exact hplace path fault ht
  · rw [he]
    refine ⟨fun t ht hplace => ?_, iff_of_true ⟨text, (honly text).mpr rfl⟩ fun t => deliver_error,
      fun hok => ⟨text, honly, deliver_ok hl hok⟩⟩
    obtain ⟨path, fault, rfl⟩ := deliver_error ht
    exact absurd rfl (hplace path fault)

end

/-! ## Files in a list -/

namespace World

/-- The files by their places, one of which is what is open. -/
def view : View World Place Place where
  file w := w.disk.find?
  stdout := World.stdout
  opened := id

theorem accepted_of_verdict {w : World} {bytes : List UInt8} (h : w.verdict bytes = .ok ()) :
    w.accepted bytes = bytes.length := by
  unfold verdict at h
  split at h
  · assumption
  · cases h

theorem create_eq_ok {path : String} {w w' : World} {place : Place}
    (h : World.create path w = (.ok place, w')) :
    w.disk.target path = .ok place ∧ w' = { w with disk := w.disk.set place [] } := by
  unfold World.create at h
  cases htarget : w.disk.target path with
  | error fault =>
    rw [htarget] at h
    cases h
  | ok found =>
    rw [htarget] at h
    cases h
    exact ⟨rfl, rfl⟩

theorem write_eq_ok {place : Place} {text : String} {w w' : World}
    (h : World.write place text w = (.ok (), w')) : w' = { w with
      disk := w.disk.set place ((w.disk.find? place).getD [] ++ Text.encode text.toList)
      room := w.roomAfter (Text.encode text.toList) } := by
  obtain ⟨hverdict, rfl⟩ := Prod.mk.inj h
  rw [accepted_of_verdict hverdict, List.take_length]

/-- With no bound on the room, a text is delivered wherever its file can be created. -/
theorem deliver_of_target {w : World} (hroom : w.room = none) {path text : String} {place : Place}
    (h : w.disk.target path = .ok place) :
    ((deliver World.host (some path) text).run w).1 = .ok () := by
  have hcreate : (World.host.create path).run w =
      (.ok place, { w with disk := w.disk.set place [] }) := by
    show World.create path w = _
    rw [World.create, h]
  have hverdict : ∀ bytes, World.verdict { w with disk := w.disk.set place [] } bytes = .ok () := by
    intro bytes
    unfold verdict accepted
    dsimp only
    rw [hroom]
    exact if_pos rfl
  unfold deliver
  dsimp only
  rw [StateT.run_bind, hcreate]
  exact congrArg (Except.mapError _) (hverdict _)

theorem lawful : World.host.Lawful World.view where
  read_state _ _ := rfl
  create_ok path w place w' h := by
    obtain ⟨-, rfl⟩ := create_eq_ok h
    refine ⟨?_, fun other ho => ?_, rfl⟩
    · exact (Disk.find?_set ..).trans (if_pos rfl)
    · exact (Disk.find?_set ..).trans (if_neg ho)
  write_ok place text w w' old h hold := by
    obtain rfl := write_eq_ok h
    have hold : w.disk.find? place = some old := hold
    rw [hold]
    refine ⟨?_, fun other ho => ?_, rfl⟩
    · exact (Disk.find?_set ..).trans (if_pos rfl)
    · exact (Disk.find?_set ..).trans (if_neg ho)
  read_created path w place w₁ text w₂ contents hcreate hwrite hcontents := by
    obtain ⟨htarget, rfl⟩ := create_eq_ok hcreate
    obtain rfl := write_eq_ok hwrite
    have hset : some _ = some contents :=
      ((Disk.find?_set ..).trans (if_pos rfl)).symm.trans hcontents
    show Except.mapError _ (Disk.read _ path) = _
    rw [Disk.set_set, Disk.read_set htarget, Option.some.inj hset]
    rfl
  print_ok text w w' h := by
    obtain ⟨hverdict, rfl⟩ := Prod.mk.inj h
    refine ⟨?_, fun _ => rfl⟩
    show w.stdout ++ List.take _ _ = _
    rw [accepted_of_verdict hverdict, List.take_length]
    rfl

end World

/-- A module with one wire, on one line. -/
def wireText : String := "module \\t wire \\c end"

def wireModule : Module := { name := "t", wires := [{ name := "c", width := 1 }] }

open Rtlil in
theorem parse_wireText : Rtlil.parse wireText = .ok ⟨[wireModule]⟩ := by
  have htokens : Rtlil.tokens wireText.toList = .ok [⟨.word "module", 1⟩, ⟨.name "t", 1⟩,
    ⟨.word "wire", 1⟩, ⟨.name "c", 1⟩, ⟨.word "end", 1⟩] := by cbv
  have hbody : moduleBody 1 { name := "t" } .empty
      [⟨.word "wire", 1⟩, ⟨.name "c", 1⟩, ⟨.word "end", 1⟩] = .ok (wireModule, []) := by
    rw [moduleBody, Text.andThen_eq_bind]
    cbv
  have hmodule : Rtlil.module 1 {} .empty
      [⟨.name "t", 1⟩, ⟨.word "wire", 1⟩, ⟨.name "c", 1⟩, ⟨.word "end", 1⟩] =
      .ok (⟨[wireModule]⟩, []) := by
    change (moduleBody 1 { name := "t" } .empty _ >>= _) = _
    rw [hbody]
    rfl
  rw [Rtlil.parse, htokens]
  change designBody 1 {} .empty _ = _
  rw [designBody, Text.andThen_eq_bind, hmodule]
  cbv

/-- A file is read and written again, with a buffer that nothing in it needs. -/
def toFile (path : String) : Arguments :=
  { input := "a.il", output := path, buffer := "B", bufferPorts := "O:I" }

def requestTo (path : String) (format : Format) : Request :=
  { options := { buffer := some ⟨"B", "O", "I"⟩ }
    input := "a.il", inputFormat := .rtlil, output := path, outputFormat := format }

def wireFile : World := { disk := ⟨[(["a.il"], Text.encode wireText.toList)]⟩ }

theorem read_wireFile : (World.host.read "a.il" wireFile).1 =
    .ok (Text.encode wireText.toList) := by cbv

theorem answer_requestTo (path : String) (format : Format) :
    (requestTo path format).answer (Text.encode wireText.toList) =
      .ok (format.print ⟨[wireModule]⟩) := by
  have hdecode : Text.decode? (Text.encode wireText.toList) = some wireText.toList := by cbv
  have hread : Format.rtlil.read "a.il" (Text.encode wireText.toList) = .ok ⟨[wireModule]⟩ := by
    unfold Format.read
    rw [hdecode]
    dsimp only
    rw [String.ofList_toList, parse_wireText]
    rfl
  have hkept : ((Buffering.run (requestTo path format).options ⟨[wireModule]⟩).mapError
      Failure.options).map (·.design) = .ok ⟨[wireModule]⟩ := by cbv
  obtain ⟨p, hp, hdesign⟩ := Text.map_eq_ok.mp hkept
  rw [Request.answer, show (requestTo path format).inputFormat = .rtlil from rfl,
    show (requestTo path format).input = "a.il" from rfl, hread]
  show ((Buffering.run (requestTo path format).options ⟨[wireModule]⟩).mapError Failure.options >>=
    fun p => .ok (format.print p.design)) = _
  rw [hp]
  exact congrArg (fun d => Except.ok (format.print d)) hdesign

theorem ofArguments_toFile : Request.ofArguments (toFile "a.il") =
    .ok (requestTo "a.il" .rtlil) := by cbv

theorem ofArguments_toFile_json : Request.ofArguments (toFile "a.json") =
    .ok (requestTo "a.json" .json) := by cbv

theorem print_wireModule :
    Format.rtlil.print ⟨[wireModule]⟩ = "module \\t\n  wire \\c\nend\n" := by cbv

/-- The module of the text as a JSON netlist. -/
def wireJson : String := "\x7b\n" ++
  "  \"creator\": \"clkbufmap 0.1.0\",\n" ++
  "  \"modules\": \x7b\n" ++
  "    \"t\": \x7b\n" ++
  "      \"attributes\": \x7b\x7d,\n" ++
  "      \"ports\": \x7b\x7d,\n" ++
  "      \"cells\": \x7b\x7d,\n" ++
  "      \"netnames\": \x7b\n" ++
  "        \"c\": \x7b\n" ++
  "          \"hide_name\": 0,\n" ++
  "          \"bits\": [\n" ++
  "            2\n" ++
  "          ],\n" ++
  "          \"attributes\": \x7b\x7d\n" ++
  "        \x7d\n" ++
  "      \x7d\n" ++
  "    \x7d\n" ++
  "  \x7d\n" ++
  "\x7d\n"

set_option maxRecDepth 4000 in
theorem print_json_wireModule : Format.json.print ⟨[wireModule]⟩ = wireJson := by cbv

section
variable {path : String} {format : Format}

theorem answers_toFile (hr : Request.ofArguments (toFile path) = .ok (requestTo path format)) :
    Answers World.host (toFile path) wireFile (format.print ⟨[wireModule]⟩) :=
  answers_iff.mpr ⟨_, _, hr, read_wireFile, answer_requestTo path format⟩

theorem execute_toFile (hr : Request.ofArguments (toFile path) = .ok (requestTo path format))
    {place : Place} (htarget : wireFile.disk.target path = .ok place) :
    (World.host.execute (toFile path) wireFile).1 = .ok () := by
  obtain ⟨t, -, -, hnone⟩ | ⟨text, -, he⟩ := execute_cases World.lawful (toFile path) wireFile
  · exact absurd (answers_toFile hr) (hnone _)
  · rw [he]
    exact World.deliver_of_target rfl htarget

end

theorem target_wireFile : wireFile.disk.target "a.il" = .ok ["a.il"] ∧
    wireFile.disk.target "a.json" = .ok ["a.json"] := by decide

/-- The answer takes the place of the text, or goes to another file in the format of that one; with
a pad that has no ports the text stays. -/
theorem execute_all_or_nothing_inPlace : World.host.Lawful World.view ∧
    (World.host.execute (toFile "a.il") wireFile).1 = .ok () ∧
    Holds World.host World.view (some "a.il") "module \\t\n  wire \\c\nend\n" wireFile
      (World.host.execute (toFile "a.il") wireFile).2 ∧
    (World.host.execute (toFile "a.json") wireFile).1 = .ok () ∧
    Holds World.host World.view (some "a.json") wireJson wireFile
      (World.host.execute (toFile "a.json") wireFile).2 ∧
    (World.host.execute { toFile "a.il" with pad := "P" } wireFile).2 = wireFile := by
  have hdone := execute_toFile ofArguments_toFile target_wireFile.1
  have hdone' := execute_toFile ofArguments_toFile_json target_wireFile.2
  obtain ⟨text, honly, hholds⟩ :=
    (execute_all_or_nothing World.lawful (toFile "a.il") wireFile).2.2 hdone
  obtain ⟨text', honly', hholds'⟩ :=
    (execute_all_or_nothing World.lawful (toFile "a.json") wireFile).2.2 hdone'
  obtain rfl := (honly _).mp (answers_toFile ofArguments_toFile)
  obtain rfl := (honly' _).mp (answers_toFile ofArguments_toFile_json)
  rw [print_wireModule] at hholds
  rw [print_json_wireModule] at hholds'
  refine ⟨World.lawful, hdone, hholds, hdone', hholds', ?_⟩
  exact (execute_all_or_nothing World.lawful { toFile "a.il" with pad := "P" } wireFile).1
    (.request (.incompleteCell "inpad")) rfl nofun

end ClockNet.CommandLine

import ClockNet.Checked.Arithmetic
import ClockNet.Proofs.DesignRefusals
import ClockNet.Proofs.Loading

/-! # The numbering of wires that are loaded

The offset of a wire that is read is a signed word. In netlist text an integer is one because of the
digits it is cut from (`intsFit_tokens`), and each step of the reader leaves a rest of the tokens
that it was given, so this holds of every wire and of its width too (`worded_parse`). In a JSON
netlist an offset is taken from a number as a word (`signedWord_importDesign`), and the width counts
bits that are listed. -/

namespace ClockNet

/-- The offset and the width of the wire are signed words. -/
structure Wire.Worded (w : Wire) : Prop where
  offset : SignedWord w.offset
  width : w.width < signedLimit

namespace Module
variable {m m' : Module} {p : Wire → Prop}

theorem forall_wires_concat {w : Wire} (h : ∀ w ∈ m.wires, p w) (hw : p w)
    (hwires : m'.wires = m.wires ++ [w]) : ∀ w ∈ m'.wires, p w := by
  intro w' hmem
  rw [hwires, List.mem_append, List.mem_singleton] at hmem
  rcases hmem with hmem | rfl
  · exact h w' hmem
  · exact hw

theorem forall_wires_modifyWire {id : WireId} {w : Wire} (h : ∀ w ∈ m.wires, p w) (hw : p w) :
    ∀ w' ∈ (m.modifyWire id fun _ => w).wires, p w' := by
  intro w' hmem
  obtain ⟨i, hi, he⟩ := List.getElem_of_mem hmem
  rw [← he, ← wire_eq_getElem hi, wire_modifyWire]
  split
  · exact hw
  · exact h _ (wire_mem (length_modifyWire m id _ ▸ hi))

theorem forall_wires_renumberPorts (hp : ∀ w n, p w → p { w with position := n })
    (h : ∀ w ∈ m.wires, p w) : ∀ w ∈ m.renumberPorts.wires, p w := by
  intro w hmem
  obtain ⟨id, hid, rfl⟩ := List.getElem_of_mem hmem
  rw [← wire_eq_getElem hid, wire_renumberPorts]
  exact hp _ _ (h _ (wire_mem (m.length_renumberPorts ▸ hid)))

end Module

theorem Design.forall_modules_add {d : Design} {m : Module} {p : Module → Prop}
    (h : ∀ m ∈ d.modules, p m) (hm : p m) : ∀ m' ∈ (d.add m).modules, p m' := by
  intro m' hm'
  rcases List.mem_append.mp hm' with hm' | hm'
  · exact h m' hm'
  · exact List.mem_singleton.mp hm' ▸ hm

/-! ## Netlist text -/

namespace Rtlil

/-- The integers among the tokens lie strictly between the signed limits. -/
def IntsFit (ts : List Located) : Prop := ∀ t ∈ ts, ∀ i, t.token = .int i → i.natAbs < signedLimit

theorem IntsFit.tail {t : Located} {ts : List Located} (h : IntsFit (t :: ts)) : IntsFit ts :=
  fun t' ht => h t' (List.mem_cons_of_mem t ht)

/-- A step leaves the end of what it was given. -/
theorem IntsFit.rest {α : Type} {f : Nat → Step α} {x : α} {lastLine : Nat}
    {ts rest : List Located} (h : IntsFit ts) (hf : ReadsAt f ts)
    (hx : f lastLine ts = .ok (x, rest)) : IntsFit rest := by
  obtain ⟨used, rfl, -⟩ := hf.resumes lastLine x rest hx
  exact fun t ht => h t (List.mem_append_right used ht)

theorem lt_of_decimal {digits : List Char} {n : Nat} (h : decimal digits = .ok n) :
    n < signedLimit := by
  unfold decimal at h
  dsimp only at h
  split at h
  · cases h
  · rename_i hfit
    cases h
    rw [Bool.or_eq_true, decide_eq_true_eq, decide_eq_true_eq, not_or] at hfit
    exact Nat.lt_of_not_le hfit.2

/-- An integer is cut from its digits, with or without a sign before them. -/
theorem natAbs_of_lexeme {c : Char} {rest : List Char} {l : Lexeme Token} {i : Int}
    (h : lexeme c rest = .ok l) (hi : l.value = .int i) : i.natAbs < signedLimit := by
  unfold lexeme at h
  split at h
  · obtain ⟨text, -, rfl⟩ := Text.map_eq_ok.mp h
    cases hi
  split at h
  · split at h
    · cases h
    · cases h
      cases hi
  split at h
  · cases h
    cases hi
  split at h
  · obtain ⟨_, hint, rfl⟩ := Text.map_eq_ok.mp h
    obtain ⟨n, hn, he⟩ := Text.of_bind_ok hint
    cases he
    cases hi
    rw [Int.natAbs_neg]
    exact lt_of_decimal hn
  split at h
  · obtain ⟨n, hn, h⟩ := Text.of_bind_ok h
    split at h
    · -- digits before an apostrophe are the width of a constant
      obtain ⟨token, htoken, h⟩ := Text.of_bind_ok h
      cases h
      unfold sized at htoken
      split at htoken
      · cases htoken
      · cases htoken
        cases hi
    · cases h
      cases hi
      exact lt_of_decimal hn
  split at h
  · cases h
    cases hi
  split at h
  · cases h
    cases hi
  · cases h

theorem intsFit_tokensFrom {line : Nat} {text : List Char} {ts : List Located}
    (h : tokensFrom line text = .ok ts) : IntsFit ts := by
  fun_induction tokensFrom line text generalizing ts with
  | case1 =>
    cases h
    intro t ht
    cases ht
  | case2 _ _ ih | case3 _ _ _ _ _ ih | case4 _ _ _ _ ih => exact ih h
  | case5 line c rest _ _ _ ih =>
    obtain ⟨l, hl, h⟩ := Text.of_andThen_ok h
    obtain ⟨ts', hts', rfl⟩ := Text.map_eq_ok.mp h
    intro t ht i hi
    rcases List.mem_cons.mp ht with rfl | ht
    · exact natAbs_of_lexeme (Text.of_mapError_ok hl) hi
    · exact ih l hl hts' t ht i hi

theorem intsFit_tokens {text : List Char} {ts : List Located} (h : tokens text = .ok ts) :
    IntsFit ts := intsFit_tokensFrom h

section
variable {lastLine : Nat} {m m' : Module} {ts rest : List Located}

theorem integer_natAbs {i : Int} (hts : IntsFit ts) (h : integer lastLine ts = .ok (i, rest)) :
    i.natAbs < signedLimit := by
  unfold integer at h
  split at h
  · cases h
    exact hts _ List.mem_cons_self _ rfl
  · cases h
  · cases h

theorem natural_lt {n : Nat} (hts : IntsFit ts) (h : natural lastLine ts = .ok (n, rest)) :
    n < signedLimit := by
  obtain ⟨⟨i, ts₁⟩, hi, h⟩ := Text.of_bind_ok h
  have hfit := integer_natAbs hts hi
  dsimp only at h
  split at h
  · cases h
  · cases h
    omega

theorem worded_wireShape {w w' : Wire} (hw : w.Worded) (hts : IntsFit ts)
    (h : wireShape lastLine w ts = .ok (w', rest)) : w'.Worded := by
  fun_induction wireShape lastLine w ts with
  | case1 w l ts ih =>
    obtain ⟨⟨n, ts₁⟩, hn, h⟩ := Text.of_andThen_ok h
    exact ih _ hn ⟨hw.offset, natural_lt hts.tail hn⟩ (hts.tail.rest (readsAt_natural ts) hn) h
  | case2 w l ts ih =>
    obtain ⟨⟨i, ts₁⟩, hi, h⟩ := Text.of_andThen_ok h
    have hfit := integer_natAbs hts.tail hi
    have hoffset : SignedWord i := ⟨by omega, by omega⟩
    exact ih _ hi ⟨hoffset, hw.width⟩ (hts.tail.rest (readsAt_integer ts) hi) h
  | case3 w l ts ih | case4 w l ts ih | case5 w l ts ih =>
    obtain ⟨⟨n, ts₁⟩, hn, h⟩ := Text.of_andThen_ok h
    exact ih _ hn ⟨hw.offset, hw.width⟩ (hts.tail.rest (readsAt_natural ts) hn) h
  | case6 w l ts ih | case7 w l ts ih =>
    exact ih ⟨hw.offset, hw.width⟩ hts.tail h
  | case8 =>
    cases h
    exact hw

theorem worded_wire {a : Attributes} (hm : ∀ w ∈ m.wires, w.Worded) (hts : IntsFit ts)
    (h : wire lastLine m a ts = .ok (m', rest)) : ∀ w ∈ m'.wires, w.Worded := by
  obtain ⟨⟨w, ts₁⟩, hshape, h⟩ := Text.of_bind_ok h
  obtain ⟨⟨name, ts₂⟩, -, h⟩ := Text.of_bind_ok h
  dsimp only at h
  split at h
  · rename_i m₁ hadd
    cases h
    obtain ⟨-, he⟩ := Option.ite_none_right_eq_some.mp hadd
    obtain rfl := Option.some.inj he
    have hnew : Wire.Worded { name := "", width := 1, attributes := a } :=
      ⟨(by decide : SignedWord 0), (by decide : 1 < signedLimit)⟩
    have hw := worded_wireShape hnew hts hshape
    exact Module.forall_wires_concat (w := { w with name }) hm ⟨hw.offset, hw.width⟩ rfl
  · cases h

theorem wires_of_cell {a : Attributes} (h : cell lastLine m a ts = .ok (m', rest)) :
    m'.wires = m.wires := by
  obtain ⟨⟨type, ts₁⟩, -, h⟩ := Text.of_bind_ok h
  obtain ⟨⟨name, ts₂⟩, -, h⟩ := Text.of_bind_ok h
  dsimp only at h
  split at h
  · cases h
  · obtain ⟨⟨c, ts₃⟩, -, h⟩ := Text.of_bind_ok h
    cases h
    rfl

theorem wires_of_connection (h : connection lastLine m ts = .ok (m', rest)) :
    m'.wires = m.wires := by
  obtain ⟨⟨driven, ts₁⟩, -, h⟩ := Text.of_bind_ok h
  obtain ⟨⟨driver, ts₂⟩, -, h⟩ := Text.of_bind_ok h
  dsimp only at h
  split at h
  · rename_i m₁ hconnect
    cases h
    obtain ⟨-, he⟩ := Option.ite_none_right_eq_some.mp hconnect
    obtain rfl := Option.some.inj he
    rfl
  · cases h

theorem IntsFit.parameterDeclaration (hts : IntsFit ts)
    (h : parameterDeclaration lastLine ts = .ok rest) : IntsFit rest := by
  obtain ⟨⟨name, ts₁⟩, hname, h⟩ := Text.of_bind_ok h
  cases h
  have hskip : skipOneValue lastLine ts₁ = .ok ((), skipValue ts₁) := rfl
  exact (hts.rest (readsAt_identifier ts) hname).rest (readsAt_skipOneValue ts₁) hskip

theorem worded_moduleBody {a : Attributes} (hm : ∀ w ∈ m.wires, w.Worded) (hts : IntsFit ts)
    (h : moduleBody lastLine m a ts = .ok (m', rest)) : ∀ w ∈ m'.wires, w.Worded := by
  fun_induction moduleBody lastLine m a ts with
  | case1 m a l ts =>
    cases h
    exact Module.forall_wires_renumberPorts (fun w n h => ⟨h.offset, h.width⟩) hm
  | case2 m a l ts ih =>
    obtain ⟨r, hr, h⟩ := Text.of_andThen_ok h
    exact ih r hr hm (hts.tail.rest (readsAt_binding ts) hr) h
  | case3 m a l ts ih =>
    obtain ⟨r, hr, h⟩ := Text.of_andThen_ok h
    exact ih r hr (worded_wire hm hts.tail hr) (hts.tail.rest (readsAt_wire m a ts) hr) h
  | case4 m a l ts ih =>
    obtain ⟨r, hr, h⟩ := Text.of_andThen_ok h
    exact ih r hr (wires_of_cell hr ▸ hm) (hts.tail.rest (readsAt_cell m a ts) hr) h
  | case5 m a l ts ih =>
    obtain ⟨r, hr, h⟩ := Text.of_andThen_ok h
    exact ih r hr (wires_of_connection hr ▸ hm)
      (hts.tail.rest (readsAt_connection (m := m) ts) hr) h
  | case6 m a l ts ih =>
    obtain ⟨r, hr, h⟩ := Text.of_andThen_ok h
    exact ih r hr hm (hts.tail.parameterDeclaration hr) h
  | case7 => cases h
  | case8 => cases h

theorem worded_module {d d' : Design} {a : Attributes}
    (hd : ∀ m ∈ d.modules, ∀ w ∈ m.wires, w.Worded) (hts : IntsFit ts)
    (h : module lastLine d a ts = .ok (d', rest)) : ∀ m ∈ d'.modules, ∀ w ∈ m.wires, w.Worded := by
  obtain ⟨⟨name, ts₁⟩, hname, h⟩ := Text.of_bind_ok h
  dsimp only at h
  split at h
  · cases h
  · obtain ⟨⟨m, ts₂⟩, hbody, h⟩ := Text.of_bind_ok h
    cases h
    have hnone : ∀ w ∈ Module.wires { name, attributes := a }, w.Worded := by
      intro w hw
      cases hw
    exact Design.forall_modules_add hd
      (worded_moduleBody hnone (hts.rest (readsAt_identifier ts) hname) hbody)

theorem worded_designBody {d d' : Design} {a : Attributes}
    (hd : ∀ m ∈ d.modules, ∀ w ∈ m.wires, w.Worded) (hts : IntsFit ts)
    (h : designBody lastLine d a ts = .ok d') : ∀ m ∈ d'.modules, ∀ w ∈ m.wires, w.Worded := by
  fun_induction designBody lastLine d a ts with
  | case1 d a =>
    cases h
    exact hd
  | case2 d a l ts ih =>
    obtain ⟨r, hr, h⟩ := Text.of_andThen_ok h
    exact ih r hr hd (hts.tail.rest (readsAt_integer ts) hr) h
  | case3 d a l ts ih =>
    obtain ⟨r, hr, h⟩ := Text.of_andThen_ok h
    exact ih r hr hd (hts.tail.rest (readsAt_binding ts) hr) h
  | case4 d a l ts ih =>
    obtain ⟨r, hr, h⟩ := Text.of_andThen_ok h
    exact ih r hr (worded_module hd hts.tail hr) (hts.tail.rest (readsAt_module d a ts) hr) h
  | case5 => cases h

end

/-- The offset and the width of a wire that netlist text declares are signed words. -/
theorem worded_parse {text : String} {d : Design} (h : parse text = .ok d) :
    ∀ m ∈ d.modules, ∀ w ∈ m.wires, w.Worded := by
  obtain ⟨ts, hts, h⟩ := Text.of_bind_ok h
  exact worded_designBody (by simp) (intsFit_tokens hts) h

end Rtlil

/-! ## JSON netlists -/

namespace NetlistJson
variable {d d' : Draft}

theorem signedWord_of_toInt? {j : Json} {i : Int} (h : j.toInt? = some i) : SignedWord i := by
  cases j with
  | number n =>
    rw [Json.toInt?, Json.Number.toInt?, Option.ite_none_left_eq_some] at h
    exact Option.some.inj h.2 ▸ signedWord_word _
  | _ => cases h

theorem signedWord_importShape {w w' : Wire} {j : Json} (hw : SignedWord w.offset)
    (h : importShape w j = .ok w') : SignedWord w'.offset := by
  unfold importShape at h
  dsimp only at h
  split at h
  · cases h
    exact hw
  · split at h
    · rename_i found hfound
      cases h
      exact signedWord_of_toInt? hfound
    · cases h

def OffsetsWords (m : Module) : Prop := ∀ w ∈ m.wires, SignedWord w.offset

theorem OffsetsWords.bindWire (h : OffsetsWords d.module) {name : String} {bits : Json}
    {id : WireId} (hd : bindWire d name bits = .ok (id, d')) : OffsetsWords d'.module := by
  obtain ⟨-, -, hbits⟩ := bindWire_ok hd
  exact Module.forall_wires_concat h (by decide : SignedWord 0) (wires_bindBits hbits)

theorem OffsetsWords.updateWire (h : OffsetsWords d.module) {id : WireId}
    {step : Wire → Except Fault Wire}
    (hstep : ∀ w w', SignedWord w.offset → step w = .ok w' → SignedWord w'.offset)
    (hd : updateWire d id step = .ok d') : OffsetsWords d'.module := by
  obtain ⟨w, hw, hd⟩ := Text.of_bind_ok hd
  cases hd
  -- an id without a wire stands for the default one, the offset of which is 0
  have hold : SignedWord (d.module.wire id).offset := by
    rcases Nat.lt_or_ge id d.module.wires.length with hid | hid
    · exact h _ (Module.wire_mem hid)
    · rw [Module.wire_eq_default hid]
      exact (by decide : SignedWord 0)
  exact Module.forall_wires_modifyWire h (hstep _ w hold hw)

theorem OffsetsWords.importNet (h : OffsetsWords d.module) {name : String} {j : Json}
    (hd : importNet d name j = .ok d') : OffsetsWords d'.module := by
  obtain ⟨⟨id, d₁⟩, hbind, hupdate⟩ := Text.of_bind_ok hd
  refine (h.bindWire hbind).updateWire (fun w w' hw hstep => ?_) hupdate
  obtain ⟨attributes, -, hshape⟩ := Text.of_bind_ok hstep
  exact signedWord_importShape (w := { w with attributes }) hw hshape

theorem OffsetsWords.importPort (h : OffsetsWords d.module) {position : Nat} {direction : Direction}
    {name : String} {j : Json} (hd : importPort d position direction name j = .ok d') :
    OffsetsWords d'.module := by
  obtain ⟨id, d₁, hwire, hupdate⟩ := importPort_ok hd
  have h₁ : OffsetsWords d₁.module := by
    rcases hwire with ⟨-, rfl⟩ | ⟨-, hbind⟩
    · exact h
    · exact h.bindWire hbind
  refine h₁.updateWire (fun w w' hw hstep => ?_) hupdate
  obtain ⟨w₁, hshape, hstep⟩ := Text.of_bind_ok hstep
  have hw₁ : SignedWord w₁.offset := signedWord_importShape hw hshape
  cases hstep
  exact hw₁

theorem OffsetsWords.importPorts {ports : List (Direction × String × Json)} {position : Nat}
    (h : OffsetsWords d.module) (hd : importPorts d position ports = .ok d') :
    OffsetsWords d'.module := by
  induction ports generalizing d position with
  | nil =>
    cases hd
    exact h
  | cons port rest ih =>
    obtain ⟨d₁, hfirst, hrest⟩ := Text.of_bind_ok hd
    exact ih (h.importPort hfirst) hrest

theorem OffsetsWords.signalBit (h : OffsetsWords d.module) {j : Json} {b : Bit}
    (hd : signalBit d j = .ok (b, d')) : OffsetsWords d'.module := by
  unfold NetlistJson.signalBit at hd
  split at hd
  · split at hd
    · cases hd
      exact h
    · cases hd
      exact Module.forall_wires_concat h (by decide : SignedWord 0) rfl
  · obtain ⟨c, -, hresult⟩ := Text.map_eq_ok.mp hd
    cases hresult
    exact h

theorem OffsetsWords.signalBits {bits : List Json} {s : Signal} (h : OffsetsWords d.module)
    (hd : signalBits d bits = .ok (s, d')) : OffsetsWords d'.module := by
  induction bits generalizing d s with
  | nil =>
    cases hd
    exact h
  | cons j rest ih =>
    obtain ⟨⟨b, d₁⟩, hfirst, hd⟩ := Text.of_bind_ok hd
    obtain ⟨⟨s', d₂⟩, hrest, hresult⟩ := Text.of_bind_ok hd
    cases hresult
    exact ih (h.signalBit hfirst) hrest

theorem OffsetsWords.importConnections {fields : List (String × Json)}
    {connections : List (String × Signal)} (h : OffsetsWords d.module)
    (hd : importConnections d fields = .ok (connections, d')) : OffsetsWords d'.module := by
  induction fields generalizing d connections with
  | nil =>
    cases hd
    exact h
  | cons field rest ih =>
    obtain ⟨⟨s, d₁⟩, hfirst, hd⟩ := Text.of_bind_ok hd
    obtain ⟨⟨connections', d₂⟩, hrest, hresult⟩ := Text.of_bind_ok hd
    cases hresult
    exact ih (h.signalBits (signalBits_of_importSignal hfirst)) hrest

theorem OffsetsWords.importCell (h : OffsetsWords d.module) {name : String} {j : Json}
    (hd : importCell d name j = .ok d') : OffsetsWords d'.module := by
  unfold NetlistJson.importCell at hd
  split at hd
  · split at hd
    · cases hd
    · obtain ⟨⟨connections, d₁⟩, hconnections, hd⟩ := Text.of_bind_ok hd
      obtain ⟨parameters, -, hd⟩ := Text.of_bind_ok hd
      obtain ⟨attributes, -, hd⟩ := Text.of_bind_ok hd
      obtain ⟨directions, -, hresult⟩ := Text.of_bind_ok hd
      have h₁ : OffsetsWords d₁.module := h.importConnections hconnections
      cases hresult
      exact h₁
  · cases hd

theorem offsetsWords_importModule {name : String} {j : Json} {m : Module}
    (h : importModule name j = .ok m) : OffsetsWords m := by
  unfold importModule at h
  obtain ⟨attributes, -, h⟩ := Text.of_bind_ok h
  obtain ⟨ports, -, h⟩ := Text.of_bind_ok h
  obtain ⟨d₁, hnets, h⟩ := Text.of_bind_ok h
  obtain ⟨d₂, hports, h⟩ := Text.of_bind_ok h
  obtain ⟨d₃, hcells, hresult⟩ := Text.of_bind_ok h
  cases hresult
  have hstart : OffsetsWords { name, attributes } := by
    intro w hw
    cases hw
  have h₁ : OffsetsWords d₁.module :=
    foldlM_invariant (P := fun d => OffsetsWords d.module) (fun d field d' hd => hd.importNet)
      hstart hnets
  have h₃ : OffsetsWords d₃.module :=
    foldlM_invariant (P := fun d => OffsetsWords d.module) (fun d field d' hd => hd.importCell)
      (h₁.importPorts hports) hcells
  exact Module.forall_wires_renumberPorts (fun w n hw => hw) h₃

/-- The offset of a wire that a JSON netlist declares is a signed word. -/
theorem signedWord_importDesign {j : Json} {d : Design} (h : importDesign j = .ok d) :
    ∀ m ∈ d.modules, OffsetsWords m := by
  unfold importDesign at h
  split at h
  · refine foldlM_invariant (P := fun d : Design => ∀ m ∈ d.modules, OffsetsWords m) ?_
      (by simp) h
    intro d field d' hd hstep
    split at hstep
    · cases hstep
    · obtain ⟨m, hm, rfl⟩ := Text.map_eq_ok.mp hstep
      exact Design.forall_modules_add hd (offsetsWords_importModule hm)
  · cases h

end NetlistJson

/-! ## Both -/

namespace Wire

/-- A wire of a design that has been read from netlist text or from the tree of a JSON netlist,
where it has as many bits as an array in memory has items. -/
inductive Loaded (w : Wire) : Prop where
  | text {text : String} {d : Design} {m : Module} (read : Rtlil.parse text = .ok d)
      (hm : m ∈ d.modules) (hw : w ∈ m.wires)
  | tree {j : Json} {d : Design} {m : Module} (read : NetlistJson.importDesign j = .ok d)
      (hm : m ∈ d.modules) (hw : w ∈ m.wires) (width : w.width < signedLimit)

theorem Loaded.worded {w : Wire} (h : w.Loaded) : w.Worded := by
  cases h with
  | text read hm hw => exact Rtlil.worded_parse read _ hm w hw
  | tree read hm hw width => exact ⟨NetlistJson.signedWord_importDesign read _ hm w hw, width⟩

end Wire

end ClockNet

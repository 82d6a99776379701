import ClockNet.NetlistJson.Export
import ClockNet.NetlistJson.Import
import ClockNet.Proofs.Chunks
import ClockNet.Proofs.Tables

/-! # Fields of a JSON netlist read back

What is written of a value, of the shape of a wire or of a direction is what is read
(`importAttributes_exportAttributes`, `importShape_exportShape`). Values are an exception in a few
cases, which strings do not tell apart: the constant without bits, and a text that ends in a space
behind nothing or behind a constant (`read_as_written`). A value that has been read is none of these
(`reread_of_importValue`). -/

namespace ClockNet.NetlistJson

/-! ## Values -/

/-- The string that a value is written as. -/
def valueString : Value → String
  | .const c => c.bits
  | .text s => if looksConstant s.toList then s ++ " " else s

/-- The value that is read where a value was written. -/
def reread (v : Value) : Value := valueOfString (valueString v)

theorem exportValue_eq (v : Value) : exportValue v = .string (valueString v) := by
  cases v <;> rfl

theorem importValue_exportValue (v : Value) : importValue (exportValue v) = .ok (reread v) := by
  rw [exportValue_eq]
  rfl

theorem isBit_toChar (t : Trit) : isBit t.toChar = true := by cases t <;> rfl

theorem looksConstant_toChars {c : Const} (h : c ≠ []) : looksConstant c.toChars = true := by
  simp [looksConstant, Const.toChars, isBit_toChar, h]

theorem reread_const {c : Const} (h : c ≠ []) : reread (.const c) = .const c := by
  have hchars : c.bits.toList = c.toChars := String.toList_ofList
  simp [reread, valueString, valueOfString, Const.ofString?, hchars, looksConstant_toChars h,
    Const.ofChars?_toChars]

theorem ofChars?_of_looksConstant {s : List Char} (h : looksConstant s = true) :
    ∃ c, Const.ofChars? s = some c ∧ c ≠ [] := by
  simp only [looksConstant, Bool.and_eq_true, Bool.not_eq_true', List.all_eq_true] at h
  obtain ⟨hne, hbits⟩ := h
  have hchar : ∀ c, isBit c = true → ∃ t, Trit.ofChar? c = some t := by
    intro c hc
    simp only [isBit, Bool.or_eq_true, decide_eq_true_eq] at hc
    rcases hc with ((rfl | rfl) | rfl) | rfl <;> exact ⟨_, rfl⟩
  have hall : ∀ l : List Char, (∀ c ∈ l, isBit c = true) →
      ∃ c, l.mapM Trit.ofChar? = some c ∧ c.length = l.length := by
    intro l hl
    induction l with
    | nil => exact ⟨[], rfl, rfl⟩
    | cons x l ih =>
      obtain ⟨t, ht⟩ := hchar x (hl x List.mem_cons_self)
      obtain ⟨c, hc, hlen⟩ := ih fun c hc => hl c (List.mem_cons_of_mem _ hc)
      exact ⟨t :: c, by simp [ht, hc], by simp [hlen]⟩
  obtain ⟨c, hc, hlen⟩ := hall s.reverse fun c hc => hbits c (List.mem_reverse.mp hc)
  refine ⟨c, hc, ?_⟩
  rintro rfl
  rw [List.length_nil, List.length_reverse] at hlen
  rw [List.length_eq_zero_iff.mp hlen.symm] at hne
  cases hne

/-- With a space at its end, a text does not look like a constant. -/
theorem looksConstant_space (s : List Char) : looksConstant (s ++ [' ']) = false := by
  have hbit : isBit ' ' = false := by decide
  simp [looksConstant, hbit]

theorem valueOfString_space {s : List Char} (h : s = [] ∨ looksConstant s = true) :
    valueOfString (String.ofList (s ++ [' '])) = .text (String.ofList s) := by
  have hfront : (s.isEmpty || looksConstant s) = true := by
    rcases h with rfl | h
    · rfl
    · simp [h]
  unfold valueOfString
  rw [String.toList_ofList, looksConstant_space]
  simp only [Bool.false_eq_true, if_false, List.reverse_append, List.reverse_singleton,
    List.singleton_append, List.reverse_reverse, hfront, if_true]

theorem valueOfString_text {s : String} (h : looksConstant s.toList = false) :
    valueOfString s = .text s ∨ ∃ front, (front = [] ∨ looksConstant front = true) ∧
      s = String.ofList (front ++ [' ']) ∧ valueOfString s = .text (String.ofList front) := by
  unfold valueOfString
  rw [h]
  simp only [Bool.false_eq_true, if_false]
  split
  · rename_i front hreverse
    split
    · rename_i hfront
      refine .inr ⟨front.reverse, by simpa using hfront, ?_, rfl⟩
      rw [← List.reverse_cons, ← hreverse, List.reverse_reverse, String.ofList_toList]
    · exact .inl rfl
  · exact .inl rfl

/-- A string is a constant with bits, or a text, or a text with a mark at its end. -/
theorem valueOfString_cases (s : String) : (∃ c, c ≠ [] ∧ valueOfString s = .const c) ∨
    looksConstant s.toList = false ∧ (valueOfString s = .text s ∨
      ∃ front, (front = [] ∨ looksConstant front = true) ∧
        s = String.ofList (front ++ [' ']) ∧ valueOfString s = .text (String.ofList front)) := by
  cases hc : looksConstant s.toList with
  | true =>
    obtain ⟨c, hs, hne⟩ := ofChars?_of_looksConstant hc
    exact .inl ⟨c, hne, by simp [valueOfString, hc, Const.ofString?, hs]⟩
  | false => exact .inr ⟨rfl, valueOfString_text hc⟩

/-- A text that looks like a constant is written with a mark and read without it. -/
theorem reread_marked {s : List Char} (h : looksConstant s = true) :
    reread (.text (String.ofList s)) = .text (String.ofList s) := by
  have hstring : valueString (.text (String.ofList s)) = String.ofList (s ++ [' ']) := by
    rw [valueString, String.toList_ofList, if_pos h]
    exact (String.ofList_append ..).symm
  rw [reread, hstring, valueOfString_space (.inr h)]

/-- What a string stands for is read back when it is written. -/
theorem reread_valueOfString (s : String) : reread (valueOfString s) = valueOfString s := by
  rcases valueOfString_cases s with ⟨c, hne, hv⟩ | ⟨hs, hv | ⟨front, hfront, -, hv⟩⟩
  · rw [hv, reread_const hne]
  · have hstring : valueString (.text s) = s := by simp [valueString, hs]
    rw [hv, reread, hstring, hv]
  · rw [hv]
    rcases hfront with rfl | hfront
    · rfl
    · exact reread_marked hfront

/-- A value that has been read is written as it was read. -/
theorem reread_of_importValue {j : Json} {v : Value} (h : importValue j = .ok v) :
    reread v = v := by
  have hlen : ∀ n, Const.ofNat n 32 ≠ [] := by
    intro n hn
    have := congrArg List.length hn
    simp [Const.ofNat] at this
  unfold importValue at h
  split at h
  · cases h
    exact reread_valueOfString _
  · split at h
    · cases h
      exact reread_const (hlen _)
    · cases h
      exact reread_const (hlen _)
    · cases h

/-- A value that is read back as a text other than itself. Strings have no room for it: the
constant without bits is a string without characters, and a text with a space behind nothing, or
behind what looks like a constant, looks like one that carries the mark. -/
inductive TakenFor : Value → String → Prop where
  | noBits : TakenFor (.const []) ""
  | marked {front : List Char} (h : front = [] ∨ looksConstant front = true) :
    TakenFor (.text (String.ofList (front ++ [' ']))) (String.ofList front)

theorem TakenFor.ne {v : Value} {s : String} (h : TakenFor v s) : v ≠ .text s := by
  cases h with
  | noBits => exact nofun
  | marked h =>
    intro he
    have hlist := String.ofList_injective (Value.text.inj he)
    simp at hlist

theorem TakenFor.reread_eq {v : Value} {s : String} (h : TakenFor v s) : reread v = .text s := by
  cases h with
  | noBits => rfl
  | @marked front h =>
    have hstring : valueString (.text (String.ofList (front ++ [' ']))) =
        String.ofList (front ++ [' ']) := by
      simp [valueString, looksConstant_space]
    rw [reread, hstring, valueOfString_space h]

/-- A value that is not taken for another one is read back. -/
theorem reread_of_not_taken {v : Value} (h : ∀ s, ¬TakenFor v s) : reread v = v := by
  cases v with
  | const c =>
    refine reread_const ?_
    rintro rfl
    exact h "" .noBits
  | text s =>
    cases hs : looksConstant s.toList with
    | true =>
      rw [← String.ofList_toList (s := s)]
      exact reread_marked hs
    | false =>
      have hstring : valueString (.text s) = s := by simp [valueString, hs]
      rw [reread, hstring]
      rcases valueOfString_text hs with hv | ⟨front, hfront, rfl, -⟩
      · exact hv
      · exact absurd (.marked hfront) (h _)

/-- What is written of a value is always read, and as the value unless it is taken for a text. -/
theorem read_as_written (v : Value) : ∃ read, importValue (exportValue v) = .ok read ∧
    (read = v ↔ ¬∃ s, TakenFor v s) ∧ ∀ s, TakenFor v s → read = .text s := by
  refine ⟨reread v, importValue_exportValue v, ⟨?_, ?_⟩, fun s h => h.reread_eq⟩
  · rintro hself ⟨s, h⟩
    exact h.ne (hself.symm.trans h.reread_eq)
  · exact fun h => reread_of_not_taken fun s hs => h ⟨s, hs⟩

/-- A text that ends in a space loses it, and the constant without bits becomes a text. -/
theorem space_lost : importValue (exportValue (.text "01 ")) = .ok (.text "01") ∧
    importValue (exportValue (.const [])) = .ok (.text "") :=
  ⟨rfl, rfl⟩

/-! ## Steps that may fail -/

theorem foldlM_ok {α σ ε : Type} {f : σ → α → Except ε σ} {g : σ → α → σ} {l : List α}
    (h : ∀ s, ∀ a ∈ l, f s a = .ok (g s a)) (s : σ) : l.foldlM f s = .ok (l.foldl g s) := by
  induction l generalizing s with
  | nil => rfl
  | cons a l ih =>
    rw [List.foldlM_cons, h s a List.mem_cons_self]
    exact ih (fun s a ha => h s a (List.mem_cons_of_mem _ ha)) (g s a)

theorem foldlM_invariant {α σ ε : Type} {P : σ → Prop} {f : σ → α → Except ε σ}
    (hf : ∀ s a t, P s → f s a = .ok t → P t) {l : List α} {s t : σ} (hs : P s)
    (h : l.foldlM f s = .ok t) : P t := by
  induction l generalizing s with
  | nil =>
    cases h
    exact hs
  | cons a l ih =>
    rw [List.foldlM_cons] at h
    obtain ⟨u, hu, h⟩ := Text.of_bind_ok h
    exact ih (hf s a u hs hu) h

/-- Steps that each go on from where the one before ended lead through a list. -/
theorem foldlM_steps {α σ ε : Type} {P : List α → σ → Prop} {f : σ → α → Except ε σ} {l : List α}
    (h : ∀ done a rest s, done ++ a :: rest = l → P done s →
      ∃ t, f s a = .ok t ∧ P (done ++ [a]) t) {s : σ} (hs : P [] s) :
    ∃ t, l.foldlM f s = .ok t ∧ P l t := by
  have hrest : ∀ rest done s, done ++ rest = l → P done s →
      ∃ t, rest.foldlM f s = .ok t ∧ P l t := by
    intro rest
    induction rest with
    | nil =>
      intro done s hl hp
      rw [List.append_nil] at hl
      exact ⟨s, rfl, hl ▸ hp⟩
    | cons a rest ih =>
      intro done s hl hp
      obtain ⟨t, ht, hpt⟩ := h done a rest s hl hp
      obtain ⟨u, hu, hpu⟩ := ih (done ++ [a]) t (by simpa using hl) hpt
      refine ⟨u, ?_, hpu⟩
      rw [List.foldlM_cons, ht]
      exact hu
  exact hrest l [] s rfl hs

theorem ok_bind {α β ε : Type} (a : α) (f : α → Except ε β) : (Except.ok a >>= f) = f a := rfl

/-! ## Attributes -/

/-- The attributes that are read where attributes were written. -/
def rereadAll (a : Attributes) : Attributes := a.mapValues reread

theorem importAttributes_exportAttributes (a : Attributes) :
    importAttributes (exportAttributes a) = .ok (rereadAll a) := by
  show (a.entries.map fun e => (e.1, exportValue e.2)).foldlM _ _ = _
  rw [List.foldlM_map]
  refine (foldlM_ok (g := fun t e => t.insert e.1 (reread e.2)) ?_ _).trans ?_
  · intro t e _
    dsimp only
    rw [importValue_exportValue]
    rfl
  · have hput := SortedTable.foldl_insert_entries (rereadAll a)
    rw [rereadAll, SortedTable.mapValues, List.foldl_map] at hput
    exact congrArg Except.ok hput

theorem rereadAll_of_importAttributes {j : Json} {a : Attributes}
    (h : importAttributes j = .ok a) : rereadAll a = a := by
  refine SortedTable.mapValues_eq_self ?_
  refine foldlM_invariant (P := fun a : Attributes => ∀ e ∈ a.entries, reread e.2 = e.2)
    ?_ ?_ h
  · intro a field a' ha hstep e he
    cases hv : importValue field.2 with
    | error fault =>
      rw [hv] at hstep
      cases hstep
    | ok v =>
      rw [hv] at hstep
      cases hstep
      rcases mem_insertSorted he with rfl | he
      · exact reread_of_importValue hv
      · exact ha e he
  · intro e he
    cases he

/-! ## Directions and shapes -/

@[simp] theorem importDirection_exportDirection (d : Direction) :
    importDirection (exportDirection d) = .ok d := by cases d <;> rfl

theorem find?_of_not_mem_keys {fields : List (String × Json)} {key : String}
    (h : key ∉ fields.map Prod.fst) : fields.find? (·.1 == key) = none := by
  rw [List.find?_eq_none]
  intro e he hk
  exact h (List.mem_map.mpr ⟨e, he, by simpa using hk⟩)

theorem field_between {before fields after : List (String × Json)} {key : String}
    (hb : key ∉ before.map Prod.fst) (ha : key ∉ after.map Prod.fst) :
    (Json.object (before ++ fields ++ after)).field key = (Json.object fields).field key := by
  simp only [Json.field, Json.fields, List.find?_append, find?_of_not_mem_keys hb,
    find?_of_not_mem_keys ha, Option.none_or, Option.or_none]

theorem toInt?_ofInt {i : Int} (lower : -signedLimit ≤ i) (upper : i < signedLimit) :
    (Json.ofInt i).toInt? = some i := by
  have hsign : (if i < 0 then -(i.natAbs : Int) else i.natAbs) = i := by
    split <;> omega
  simp only [Json.toInt?, Json.ofInt, Json.Number.toInt?, Json.Number.ofInt, ne_eq,
    not_true_eq_false, if_false, decide_eq_true_eq, hsign, word_eq lower upper]

/-- The names of the fields that give the shape of a wire. -/
def shapeKeys : List String := ["offset", "upto", "signed"]

/-- The shape of a wire is read from among other fields. A wire that has been given its offset
before keeps it, since an offset of zero is not written. -/
theorem importShape_exportShape {w start : Wire} {before after : List (String × Json)}
    (hb : ∀ key ∈ shapeKeys, key ∉ before.map Prod.fst)
    (ha : ∀ key ∈ shapeKeys, key ∉ after.map Prod.fst)
    (lower : -signedLimit ≤ w.offset) (upper : w.offset < signedLimit)
    (hs : start.offset = 0 ∨ start.offset = w.offset) :
    importShape start (.object (before ++ exportShape w ++ after)) = .ok { start with
      offset := w.offset, upto := start.upto || w.upto, signed := start.signed || w.signed } := by
  have hfield : ∀ key ∈ shapeKeys, (Json.object (before ++ exportShape w ++ after)).field key =
      (Json.object (exportShape w)).field key := fun key hk => field_between (hb key hk) (ha key hk)
  have hoffset : (Json.object (exportShape w)).field "offset" =
      if w.offset = 0 then .null else .ofInt w.offset := by
    unfold exportShape
    split <;> split <;> split <;> simp [Json.field, Json.fields]
  have hupto : ((Json.object (exportShape w)).field "upto").isSet = w.upto := by
    unfold exportShape
    cases w.upto <;> cases w.signed <;> by_cases hz : w.offset = 0 <;>
      simp only [hz, if_true, if_false] <;> rfl
  have hsigned : ((Json.object (exportShape w)).field "signed").isSet = w.signed := by
    unfold exportShape
    cases w.upto <;> cases w.signed <;> by_cases hz : w.offset = 0 <;>
      simp only [hz, if_true, if_false] <;> rfl
  unfold importShape
  rw [hfield "offset" (by decide), hfield "upto" (by decide), hfield "signed" (by decide), hoffset,
    hupto, hsigned]
  by_cases hzero : w.offset = 0
  · have hstart : start.offset = w.offset := by
      rcases hs with hs | hs
      · rw [hs, hzero]
      · exact hs
    simp [hzero, Json.isNull, bind, Except.bind, hstart]
  · have hnull : (Json.ofInt w.offset).isNull = false := rfl
    simp [hzero, hnull, toInt?_ofInt lower upper, bind, Except.bind]

end ClockNet.NetlistJson

import ClockNet.Buffering.Tags
import ClockNet.Proofs.Naming

/-! # What tags are added

Tags are only ever added, and each is about a port of the module that is visited. A black box
adds the tags that the attributes of its ports give (`mem_sinks_addBlackbox` and its siblings);
its inverters do not depend on what was known before (`inverters_addBlackbox`). -/

namespace ClockNet.Buffering

/-- What a walk along a list adds is what its steps add. -/
theorem mem_foldl_iff {α β γ : Type _} {f : β → α → β} {S : β → List γ} {P : α → γ → Prop}
    (h : ∀ b a x, x ∈ S (f b a) ↔ x ∈ S b ∨ P a x) (l : List α) (b : β) (x : γ) :
    x ∈ S (l.foldl f b) ↔ x ∈ S b ∨ ∃ a ∈ l, P a x := by
  induction l generalizing b with
  | nil => simp
  | cons a rest ih =>
    rw [List.foldl_cons, ih, h, or_assoc]
    simp only [List.mem_cons, exists_eq_or_imp]

namespace Tags
variable {t : Tags} {m : Module} {w : Wire} {p : PortBit}

theorem mem_bitsOf : p ∈ bitsOf m w ↔ ∃ i < w.width, p = ⟨m.name, w.name, i⟩ := by
  unfold bitsOf
  simp only [List.mem_map, List.mem_range]
  exact exists_congr fun i => and_congr_right fun _ => eq_comm

/-! ## The tags of one port -/

theorem foldl_addSink (l : List PortBit) (t : Tags) : ∃ sinks, l.foldl addSink t =
    { t with sinks } ∧ ∀ p, p ∈ sinks ↔ p ∈ t.sinks ∨ p ∈ l := by
  induction l generalizing t with
  | nil => exact ⟨t.sinks, rfl, fun p => by simp⟩
  | cons q rest ih =>
    obtain ⟨sinks, he, hs⟩ := ih (t.addSink q)
    refine ⟨sinks, he, fun p => ?_⟩
    rw [hs, show (t.addSink q).sinks = t.sinks.insert q from rfl, List.mem_insert_iff,
      List.mem_cons]
    tauto

theorem foldl_addBuffered (l : List PortBit) (t : Tags) : ∃ buffered, l.foldl addBuffered t =
    { t with buffered } ∧ ∀ p, p ∈ buffered ↔ p ∈ t.buffered ∨ p ∈ l := by
  induction l generalizing t with
  | nil => exact ⟨t.buffered, rfl, fun p => by simp⟩
  | cons q rest ih =>
    obtain ⟨buffered, he, hb⟩ := ih (t.addBuffered q)
    refine ⟨buffered, he, fun p => ?_⟩
    rw [hb, show (t.addBuffered q).buffered = t.buffered.insert q from rfl, List.mem_insert_iff,
      List.mem_cons]
    tauto

theorem foldl_addInverter (input : String) (l : List PortBit) (t : Tags) :
    l.foldl (fun t p => t.addInverter p input) t =
      { t with inverters := (l.map fun p => (p, input)).reverse ++ t.inverters } := by
  induction l generalizing t with
  | nil => rfl
  | cons p rest ih =>
    rw [List.foldl_cons, ih, List.map_cons, List.reverse_cons, List.append_assoc]
    rfl

theorem foldl_addClocked (types : List String) (t : Tags) : ∃ clocked, types.foldl addClocked t =
    { t with clocked } ∧ ∀ type, type ∈ clocked ↔ type ∈ t.clocked ∨ type ∈ types := by
  induction types generalizing t with
  | nil => exact ⟨t.clocked, rfl, fun p => by simp⟩
  | cons a rest ih =>
    obtain ⟨clocked, he, hc⟩ := ih (t.addClocked a)
    refine ⟨clocked, he, fun type => ?_⟩
    rw [hc, show (t.addClocked a).clocked = t.clocked.insert a from rfl, List.mem_insert_iff,
      List.mem_cons]
    tauto

/-- The entries for the inverters of a port, the last one first. -/
def portInverters (m : Module) (w : Wire) : List (PortBit × String) :=
  match w.attributes.get? Attribute.inverts with
  | some input => ((bitsOf m w).map fun p => (p, input.toText)).reverse
  | none => []

theorem addPort_spec (m : Module) (t : Tags) (w : Wire) : ∃ sinks buffered, addPort m t w =
      { t with sinks, buffered, inverters := portInverters m w ++ t.inverters } ∧
    (∀ p, p ∈ sinks ↔
      p ∈ t.sinks ∨ (w.attributes.flag Attribute.sink = true ∧ p ∈ bitsOf m w)) ∧
    ∀ p, p ∈ buffered ↔
      p ∈ t.buffered ∨ (w.attributes.flag Attribute.driver = true ∧ p ∈ bitsOf m w) := by
  have hbuffered : ∃ buffered, (if w.attributes.flag Attribute.driver then
      (bitsOf m w).foldl addBuffered t else t) = { t with buffered } ∧ ∀ p, p ∈ buffered ↔
        p ∈ t.buffered ∨ (w.attributes.flag Attribute.driver = true ∧ p ∈ bitsOf m w) := by
    split
    · rename_i h
      obtain ⟨buffered, he, hb⟩ := foldl_addBuffered (bitsOf m w) t
      exact ⟨buffered, he, fun p => by rw [hb, h]; simp⟩
    · rename_i h
      exact ⟨t.buffered, rfl, fun p => by simp [h]⟩
  obtain ⟨buffered, hbe, hb⟩ := hbuffered
  have hsinks : ∃ sinks, (if w.attributes.flag Attribute.sink then
      (bitsOf m w).foldl addSink { t with buffered } else { t with buffered }) =
        { t with sinks, buffered } ∧ ∀ p, p ∈ sinks ↔
        p ∈ t.sinks ∨ (w.attributes.flag Attribute.sink = true ∧ p ∈ bitsOf m w) := by
    split
    · rename_i h
      obtain ⟨sinks, he, hs⟩ := foldl_addSink (bitsOf m w) { t with buffered }
      exact ⟨sinks, he, fun p => by rw [hs, h]; simp⟩
    · rename_i h
      exact ⟨t.sinks, rfl, fun p => by simp [h]⟩
  obtain ⟨sinks, hse, hs⟩ := hsinks
  refine ⟨sinks, buffered, ?_, hs, hb⟩
  unfold addPort portInverters
  dsimp only
  rw [hbe, hse]
  cases w.attributes.get? Attribute.inverts with
  | some input => exact foldl_addInverter _ _ _
  | none => rfl

/-! ## The tags of a black box -/

/-- A port of the module carries an attribute, and the bit is one of its bits. -/
def Marked (m : Module) (mark : String) (p : PortBit) : Prop :=
  ∃ id ∈ m.ports, (m.wire id).attributes.flag mark = true ∧
    ∃ i < (m.wire id).width, p = ⟨m.name, (m.wire id).name, i⟩

theorem mem_sinks_addBlackbox :
    p ∈ (t.addBlackbox m).sinks ↔ p ∈ t.sinks ∨ Marked m Attribute.sink p := by
  unfold addBlackbox Marked
  have hport : ∀ (t : Tags) (w : Wire) (p : PortBit), p ∈ (addPort m t w).sinks ↔
      p ∈ t.sinks ∨ (w.attributes.flag Attribute.sink = true ∧ p ∈ bitsOf m w) := by
    intro t w p
    obtain ⟨sinks, buffered, he, hs, -⟩ := addPort_spec m t w
    rw [he]
    exact hs p
  rw [mem_foldl_iff (S := sinks) hport]
  simp only [List.mem_map, exists_exists_and_eq_and, mem_bitsOf]

theorem mem_buffered_addBlackbox :
    p ∈ (t.addBlackbox m).buffered ↔ p ∈ t.buffered ∨ Marked m Attribute.driver p := by
  unfold addBlackbox Marked
  have hport : ∀ (t : Tags) (w : Wire) (p : PortBit), p ∈ (addPort m t w).buffered ↔
      p ∈ t.buffered ∨ (w.attributes.flag Attribute.driver = true ∧ p ∈ bitsOf m w) := by
    intro t w p
    obtain ⟨sinks, buffered, he, -, hb⟩ := addPort_spec m t w
    rw [he]
    exact hb p
  rw [mem_foldl_iff (S := buffered) hport]
  simp only [List.mem_map, exists_exists_and_eq_and, mem_bitsOf]

theorem inverters_addPort (m : Module) (t : Tags) (w : Wire) :
    (addPort m t w).inverters = portInverters m w ++ t.inverters := by
  obtain ⟨sinks, buffered, he, -⟩ := addPort_spec m t w
  rw [he]

def ownInverters (m : Module) : List (PortBit × String) := (({} : Tags).addBlackbox m).inverters

theorem inverters_addBlackbox (t : Tags) (m : Module) :
    (t.addBlackbox m).inverters = ownInverters m ++ t.inverters := by
  have go : ∀ (ws : List Wire) (t : Tags), (ws.foldl (addPort m) t).inverters =
      (ws.foldl (addPort m) {}).inverters ++ t.inverters := by
    intro ws
    induction ws with
    | nil => intro t; rfl
    | cons w rest ih =>
      intro t
      rw [List.foldl_cons, List.foldl_cons, ih, ih (addPort m {} w), inverters_addPort,
        inverters_addPort, List.append_assoc, List.append_nil]
  exact go _ t

theorem mem_ownInverters {q : PortBit × String} : q ∈ ownInverters m ↔ ∃ id ∈ m.ports,
    ∃ input, (m.wire id).attributes.get? Attribute.inverts = some input ∧
      ∃ i < (m.wire id).width, q = (⟨m.name, (m.wire id).name, i⟩, input.toText) := by
  have hport : ∀ (t : Tags) (w : Wire) (q : PortBit × String),
      q ∈ (addPort m t w).inverters ↔ q ∈ t.inverters ∨ q ∈ portInverters m w := by
    intro t w q
    rw [inverters_addPort, List.mem_append, or_comm]
  unfold ownInverters addBlackbox
  rw [mem_foldl_iff (S := inverters) hport]
  simp only [List.mem_map, exists_exists_and_eq_and, List.not_mem_nil, false_or]
  refine exists_congr fun id => and_congr_right fun _ => ?_
  unfold portInverters
  cases (m.wire id).attributes.get? Attribute.inverts with
  | none => simp
  | some input =>
    simp only [List.mem_reverse, List.mem_map, mem_bitsOf, Option.some.injEq, exists_eq_left']
    constructor
    · intro h
      obtain ⟨p, ⟨i, hi, rfl⟩, rfl⟩ := h
      exact ⟨i, hi, rfl⟩
    · intro h
      obtain ⟨i, hi, rfl⟩ := h
      exact ⟨_, ⟨i, hi, rfl⟩, rfl⟩

def ownInverter? (m : Module) (p : PortBit) : Option String :=
  ((ownInverters m).find? (·.1 == p)).map (·.2)

theorem ownInverter?_eq_some {input : String} (h : ownInverter? m p = some input) :
    p.type = m.name ∧ ∃ id ∈ m.ports, (m.wire id).name = p.port ∧ ∃ v,
      (m.wire id).attributes.get? Attribute.inverts = some v ∧ input = v.toText := by
  obtain ⟨q, hq, rfl⟩ := Option.map_eq_some_iff.mp h
  have hp : q.1 = p := by simpa using List.find?_some hq
  obtain ⟨id, hid, v, hv, i, -, rfl⟩ := mem_ownInverters.mp (List.mem_of_find?_eq_some hq)
  subst hp
  exact ⟨rfl, id, hid, rfl, v, hv, rfl⟩

/-- A black box changes what its own bits follow and nothing else. -/
theorem inverterInput?_addBlackbox (t : Tags) (m : Module) (p : PortBit) :
    (t.addBlackbox m).inverterInput? p = (ownInverter? m p).or (t.inverterInput? p) := by
  unfold inverterInput? ownInverter?
  rw [inverters_addBlackbox, List.find?_append]
  cases (ownInverters m).find? (·.1 == p) <;> rfl

end Tags

end ClockNet.Buffering

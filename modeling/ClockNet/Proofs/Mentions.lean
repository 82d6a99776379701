import ClockNet.Proofs.FixedPoint
import ClockNet.Proofs.Keys
import Mathlib

/-! # Nets of listed bits

A JSON netlist lists bits under names: on nets, on ports, on the pins of cells. Reading gives each
of them a bit of the module, and each step of it keeps one account: a listed bit is the home of its
net or its constant, or is connected to that, and nothing but listed bits is connected (`Noted`).
In the module that is read, two listed bits are therefore on one net exactly if the text gives them
one net (`sharesNets_of_importModule`). -/

namespace ClockNet

open NetlistJson (Draft)

/-! ## Listed bits -/

/-- Where a netlist lists a bit: on a wire or on a pin of a cell, both by name. -/
inductive Site where
  | wire (name : String) (place : Nat)
  | pin (cell port : String) (place : Nat)

/-- The place of the module that names mean. -/
def Module.spot? (m : Module) : Site → Option Spot
  | .wire name place => (m.findWire name).map (.wire · place)
  | .pin cell port place => (m.findCell cell).map (.port · port place)

def Module.bitOf? (m : Module) (site : Site) : Option Bit := (m.spot? site).bind m.bitAt?

/-! ## Places that stay -/

namespace Module

/-- What look-ups in the wires of a module depend on. -/
def shapes (m : Module) : List (String × Nat) := m.wires.map fun w => (w.name, w.width)

/-- Wires and cells are only added, and wires keep their names and widths. -/
structure Extends (m m' : Module) : Prop where
  wires : m.shapes <+: m'.shapes
  cells : m.cells <+: m'.cells

variable {m m' m'' : Module}

theorem findWire_shapes (m : Module) (name : String) :
    m.findWire name = m.shapes.findIdx? (·.1 == name) := by
  rw [findWire, shapes, List.findIdx?_map]
  rfl

theorem width_shapes {id : WireId} (h : id < m.wires.length) :
    m.shapes[id]?.map Prod.snd = some (m.wire id).width := by
  rw [shapes, List.getElem?_map, List.getElem?_eq_getElem h, wire_eq_getElem h]
  rfl

theorem bitOf?_wire {name : String} {id : WireId} (h : m.findWire name = some id) (place : Nat) :
    m.bitOf? (.wire name place) = if place < (m.wire id).width then some (.wire id place)
      else none := by
  rw [bitOf?, spot?, h]
  rfl

theorem bitOf?_pin {cell port : String} {id : CellId} (h : m.findCell cell = some id)
    (place : Nat) : m.bitOf? (.pin cell port place) =
      ((m.cell id).ports.get? port).bind (·[place]?) := by
  rw [bitOf?, spot?, h]
  rfl

namespace Extends

theorem of_eq (hw : m'.shapes = m.shapes) (hc : m'.cells = m.cells) : Extends m m' :=
  ⟨hw ▸ List.prefix_rfl, hc ▸ List.prefix_rfl⟩

theorem trans (h : Extends m m') (h' : Extends m' m'') : Extends m m'' :=
  ⟨h.wires.trans h'.wires, h.cells.trans h'.cells⟩

theorem bitOf? (h : Extends m m') {site : Site} {b : Bit} (hb : m.bitOf? site = some b) :
    m'.bitOf? site = some b := by
  obtain ⟨spot, hspot, hb⟩ := Option.bind_eq_some_iff.mp hb
  cases site with
  | wire name place =>
    obtain ⟨id, hid, rfl⟩ := Option.map_eq_some_iff.mp hspot
    obtain ⟨tail, htail⟩ := h.wires
    have hid' : m'.findWire name = some id := by
      rw [findWire_shapes, ← htail, List.findIdx?_append, ← findWire_shapes, hid]
      rfl
    have hlt := (name_of_findWire hid).1
    have hwidth : (m'.wire id).width = (m.wire id).width := by
      have hlt' : id < m.shapes.length := by simpa [shapes] using hlt
      have hm := width_shapes hlt
      have hm' := width_shapes (name_of_findWire hid').1
      rw [← htail, List.getElem?_append_left hlt', hm] at hm'
      exact (Option.some.inj hm').symm
    rw [bitOf?_wire hid', hwidth]
    exact hb
  | pin cell port place =>
    obtain ⟨id, hid, rfl⟩ := Option.map_eq_some_iff.mp hspot
    obtain ⟨tail, htail⟩ := h.cells
    have hid' : m'.findCell cell = some id := by
      rw [findCell, ← htail, List.findIdx?_append]
      show (m.findCell cell).or _ = _
      rw [hid]
      rfl
    have hcell : m'.cell id = m.cell id := by
      rw [Module.cell, ← htail, List.getElem?_append_left (name_of_findCell hid).1, Module.cell]
    rw [bitOf?_pin hid', hcell]
    exact hb

end Extends

end Module

namespace NetlistJson

/-- The bits in a list, least significant first, with their places. -/
def listed (site : Nat → Site) (bits : Json) : List (Site × Json) :=
  bits.items.zipIdx.map fun e => (site e.2, e.1)

/-- The bits that the fields of nets or ports list, each under its name. -/
def wireMentions (fields : List (String × Json)) : List (Site × Json) :=
  fields.flatMap fun field => listed (.wire field.1) (field.2.field "bits")

/-- The bits that the connections of a cell list. -/
def pinMentions (cell : String) (fields : List (String × Json)) : List (Site × Json) :=
  fields.flatMap fun field => listed (.pin cell field.1) field.2

/-- The ports that no net of a name gives bits to. -/
def barePorts (names : List String) (fields : List (String × Json)) : List (String × Json) :=
  fields.filter fun field => field.1 ∉ names

/-- All bits that a module lists: those of its nets, of its ports without a net of that name, and
of the connections of its cells. -/
def mentions (j : Json) : List (Site × Json) :=
  let nets := (j.field "netnames").fields
  wireMentions nets ++ wireMentions (barePorts (nets.map Prod.fst) (j.field "ports").fields) ++
    (j.field "cells").fields.flatMap fun field =>
      pinMentions field.1 (field.2.field "connections").fields

/-- What is written for a constant, and the constant. -/
def constants : List (String × Trit) :=
  [("0", .zero), ("1", .one), ("x", .unknown), ("z", .unknown)]

/-- Two listed bits are given one net: one number, or two constants that are the same where `z` is
read as `x`. -/
inductive SameNet : Json → Json → Prop where
  | number {j j' : Json} {net : Nat} (h : j.toNat? = some net) (h' : j'.toNat? = some net) :
    SameNet j j'
  | const {s s' : String} {t : Trit} (h : (s, t) ∈ constants) (h' : (s', t) ∈ constants) :
    SameNet (.string s) (.string s')

/-- The nets of a module are those that a tree lists. -/
structure SharesNets (j : Json) (m : Module) : Prop where
  /-- Every listed bit has a bit of the module. -/
  placed : ∀ e ∈ mentions j, ∃ b, m.bitOf? e.1 = some b
  /-- Bits that are listed are aliases exactly if they are given one net. -/
  joined : ∀ e ∈ mentions j, ∀ e' ∈ mentions j, ∀ b b', m.bitOf? e.1 = some b →
    m.bitOf? e'.1 = some b' → (m.aliases.root b = m.aliases.root b' ↔ SameNet e.2 e'.2)
  /-- A bit that is given a constant stands for it. -/
  constant : ∀ site s b, (site, Json.string s) ∈ mentions j → m.bitOf? site = some b →
    ∃ t, (s, t) ∈ constants ∧ m.aliases.root b = .const t
  /-- A bit of a wire that is not listed is an alias of no other bit. -/
  alone : ∀ p, p.isConst = false → (∀ e ∈ mentions j, m.bitOf? e.1 ≠ some p) →
    ∀ q, m.aliases.root q = m.aliases.root p → q = p

/-! ## The account of a draft -/

/-- What a listed bit stands for: the home of its net, or its constant. -/
def target? (d : Draft) (j : Json) : Option Bit :=
  match j.toNat? with
  | some net => d.home? net
  | none => (constBit j).toOption

/-- The account of the listed bits that have been read, each with the bit it was given. -/
structure Noted (log : List (Json × Bit)) (d : Draft) : Prop where
  /-- The bit is what the listed one stands for, or is connected to it. -/
  given : ∀ e ∈ log, ∃ home, target? d e.1 = some home ∧
    (e.2 = home ∨ ([e.2], [home]) ∈ d.module.connections)
  homes : ∀ net b, d.home? net = some b → b ∈ log.map Prod.snd
  distinct : ∀ net net' b, d.home? net = some b → d.home? net' = some b → net = net'
  /-- Nothing else is connected. -/
  sides : ∀ b home, ([b], [home]) ∈ d.module.connections → b ∈ log.map Prod.snd ∧
    (home.isConst = true ∨ home ∈ log.map Prod.snd)

section
variable {title : String} {log more : List (Json × Bit)} {ties : List (Bit × Bit)}
  {d d' : Draft} {j : Json} {b p home : Bit} {net : Nat}

theorem target?_of_toNat? (h : j.toNat? = some net) : target? d j = d.home? net := by
  rw [target?, h]

theorem target?_of_constBit (hj : j.toNat? = none) (h : constBit j = .ok b) :
    target? d j = some b := by
  rw [target?, hj, h]
  rfl

theorem constBit_ok_iff : constBit j = .ok b ↔
    ∃ s t, (s, t) ∈ constants ∧ j = .string s ∧ b = .const t := by
  constructor
  · intro h
    unfold constBit at h
    split at h
    · exact ⟨"0", .zero, by decide, rfl, (Except.ok.inj h).symm⟩
    · exact ⟨"1", .one, by decide, rfl, (Except.ok.inj h).symm⟩
    · exact ⟨"x", .unknown, by decide, rfl, (Except.ok.inj h).symm⟩
    · exact ⟨"z", .unknown, by decide, rfl, (Except.ok.inj h).symm⟩
    · cases h
  · rintro ⟨s, t, hmem, rfl, rfl⟩
    simp only [constants, List.mem_cons, List.not_mem_nil, or_false, Prod.mk.injEq] at hmem
    rcases hmem with ⟨rfl, rfl⟩ | ⟨rfl, rfl⟩ | ⟨rfl, rfl⟩ | ⟨rfl, rfl⟩ <;> rfl

theorem target?_string {s : String} {t : Trit} (h : (s, t) ∈ constants) :
    target? d (.string s) = some (.const t) :=
  target?_of_constBit rfl (constBit_ok_iff.mpr ⟨s, t, h, rfl, rfl⟩)

theorem target?_cases (h : target? d j = some b) :
    (∃ net, j.toNat? = some net ∧ d.home? net = some b) ∨
      ∃ s t, (s, t) ∈ constants ∧ j = .string s ∧ b = .const t := by
  unfold target? at h
  split at h
  · rename_i net hnet
    exact .inl ⟨net, hnet, h⟩
  · cases hc : constBit j with
    | error fault =>
      rw [hc] at h
      cases h
    | ok c =>
      rw [hc] at h
      obtain rfl := Option.some.inj h
      exact .inr (constBit_ok_iff.mp hc)

theorem Noted.congr (h : Noted log d) (hhomes : d'.homes = d.homes)
    (hconnections : d'.module.connections = d.module.connections) : Noted log d' := by
  have hhome : d'.home? = d.home? := by
    funext net
    rw [Draft.home?, hhomes, Draft.home?]
  have htarget : target? d' = target? d := by
    funext j
    rw [target?, hhome, target?]
  refine ⟨?_, ?_, ?_, ?_⟩
  · rw [htarget, hconnections]
    exact h.given
  · rw [hhome]
    exact h.homes
  · rw [hhome]
    exact h.distinct
  · rw [hconnections]
    exact h.sides

theorem mem_snd_concat (h : b ∈ log.map Prod.snd) : b ∈ (log ++ more).map Prod.snd := by
  rw [List.map_append]
  exact List.mem_append_left _ h

theorem Noted.target (h : Noted log d) (hj : target? d j = some home) :
    home.isConst = true ∨ home ∈ log.map Prod.snd := by
  rcases target?_cases hj with ⟨net, -, hhome⟩ | ⟨s, t, -, -, rfl⟩
  · exact .inr (h.homes net home hhome)
  · exact .inl rfl

theorem Noted.note (h : Noted log d) (hj : target? d j = some b) : Noted (log ++ [(j, b)]) d where
  given e he := by
    rcases List.mem_append.mp he with he | he
    · exact h.given e he
    · obtain rfl := List.mem_singleton.mp he
      exact ⟨b, hj, .inl rfl⟩
  homes net b hb := mem_snd_concat (h.homes net b hb)
  distinct := h.distinct
  sides b home hc := (h.sides b home hc).imp mem_snd_concat (.imp_right mem_snd_concat)

theorem Noted.connect (h : Noted log d) (hj : target? d j = some home) :
    Noted (log ++ [(j, p)]) (d.modify (·.connect [p] [home])) where
  given e he := by
    rcases List.mem_append.mp he with he | he
    · obtain ⟨home', ht, hb⟩ := h.given e he
      exact ⟨home', ht, hb.imp_right (List.mem_append_left _)⟩
    · obtain rfl := List.mem_singleton.mp he
      exact ⟨home, hj, .inr (List.mem_append_right _ (List.mem_singleton.mpr rfl))⟩
  homes net b hb := mem_snd_concat (h.homes net b hb)
  distinct := h.distinct
  sides b home' hc := by
    rcases List.mem_append.mp hc with hc | hc
    · exact (h.sides b home' hc).imp mem_snd_concat (.imp_right mem_snd_concat)
    · obtain ⟨rfl, rfl⟩ : b = p ∧ home' = home := by simpa using hc
      exact ⟨by simp, (h.target hj).imp_right mem_snd_concat⟩

theorem Noted.settle (h : Noted log d) (hj : j.toNat? = some net) (hnone : d.home? net = none)
    (hnew : ∀ net, d.home? net ≠ some p) : Noted (log ++ [(j, p)]) (d.settle net p) := by
  have hold : ∀ other b, d.home? other = some b → (d.settle net p).home? other = some b := by
    intro other b hb
    rw [home?_settle, if_neg, hb]
    rintro rfl
    rw [hnone] at hb
    cases hb
  refine ⟨?_, ?_, ?_, ?_⟩
  · intro e he
    rcases List.mem_append.mp he with he | he
    · obtain ⟨home, ht, hb⟩ := h.given e he
      refine ⟨home, ?_, hb⟩
      unfold target? at ht ⊢
      split
      · rename_i other hother
        rw [hother] at ht
        exact hold other home ht
      · rename_i hother
        rwa [hother] at ht
    · obtain rfl := List.mem_singleton.mp he
      exact ⟨p, by rw [target?_of_toNat? hj, home?_settle, if_pos rfl], .inl rfl⟩
  · intro other b hb
    rcases home?_of_settle hb with hb | rfl
    · exact mem_snd_concat (h.homes other b hb)
    · simp
  · intro net₁ net₂ b h₁ h₂
    rw [home?_settle] at h₁ h₂
    split at h₁ <;> split at h₂
    · simp_all
    · obtain rfl := Option.some.inj h₁
      exact absurd h₂ (hnew net₂)
    · obtain rfl := Option.some.inj h₂
      exact absurd h₁ (hnew net₁)
    · exact h.distinct net₁ net₂ b h₁ h₂
  · exact fun b home hc => (h.sides b home hc).imp mem_snd_concat (.imp_right mem_snd_concat)

/-! ## Nets from the account -/

theorem mem_tieConnections {p t : Bit} :
    ([p], [t]) ∈ tieConnections ties ↔ (p, t) ∈ ties ∧ p ≠ t := by
  unfold tieConnections
  rw [List.mem_flatMap]
  constructor
  · rintro ⟨⟨p', t'⟩, hmem, hc⟩
    split at hc
    · cases hc
    · rename_i hne
      obtain ⟨rfl, rfl⟩ : p = p' ∧ t = t' := by simpa using hc
      exact ⟨hmem, hne⟩
  · rintro ⟨hmem, hne⟩
    refine ⟨(p, t), hmem, ?_⟩
    rw [if_neg hne]
    exact List.mem_singleton.mpr rfl

namespace Sound
variable (h : Sound title ties d)
include h

theorem root_eq (b : Bit) : d.module.aliases.root b = anchorOf ties b := by
  rw [Module.aliases, h.tied.connections, h.tied.anchored.root_tieConnections]

theorem not_const_home (hb : d.home? net = some b) : b.isConst = false :=
  h.tied.anchored.isConst_of_mem (List.mem_map_of_mem (h.tied.homes net b hb))

theorem anchorOf_target (hj : target? d j = some home) : anchorOf ties home = home := by
  rcases target?_cases hj with ⟨net, -, hhome⟩ | ⟨s, t, -, -, rfl⟩
  · exact h.tied.anchored.anchorOf_eq (h.tied.homes net home hhome)
  · exact h.tied.anchored.anchorOf_const t

/-- In the nets of the module, a bit on the account has the one that is listed for it. -/
theorem root_noted (hn : Noted log d) {e : Json × Bit} (he : e ∈ log) :
    target? d e.1 = some (d.module.aliases.root e.2) := by
  obtain ⟨home, ht, hb⟩ := hn.given e he
  rw [ht, h.root_eq]
  rcases hb with hb | hc
  · rw [hb, h.anchorOf_target ht]
  · rw [h.tied.connections, mem_tieConnections] at hc
    rw [h.tied.anchored.anchorOf_eq hc.1]

/-- Two listed bits stand for one bit exactly if they are given one net. -/
theorem target_eq_iff (hn : Noted log d) {j' : Json} {b' : Bit} (hj : target? d j = some b)
    (hj' : target? d j' = some b') : b = b' ↔ SameNet j j' := by
  constructor
  · rintro rfl
    rcases target?_cases hj with ⟨net, hnet, hb⟩ | ⟨s, t, hs, rfl, rfl⟩ <;>
      rcases target?_cases hj' with ⟨net', hnet', hb'⟩ | ⟨s', t', hs', rfl, he⟩
    · exact .number hnet (hn.distinct net net' b hb hb' ▸ hnet')
    · cases he ▸ h.not_const_home hb
    · cases h.not_const_home hb'
    · obtain rfl := Bit.const.inj he
      exact .const hs hs'
  · intro hsame
    cases hsame with
    | number hnet hnet' =>
      rw [target?_of_toNat? hnet] at hj
      rw [target?_of_toNat? hnet', hj] at hj'
      exact Option.some.inj hj'
    | const hs hs' =>
      rw [target?_string hs] at hj
      rw [target?_string hs', hj] at hj'
      exact Option.some.inj hj'

/-- A bit of a wire that is not on the account is an alias of no other bit. -/
theorem alone (hn : Noted log d) (hp : p.isConst = false) (hnew : p ∉ log.map Prod.snd) {q : Bit}
    (hq : d.module.aliases.root q = d.module.aliases.root p) : q = p := by
  have hself : ∀ t, (p, t) ∈ ties → t = p := by
    intro t ht
    by_contra hne
    have hc : ([p], [t]) ∈ d.module.connections := by
      rw [h.tied.connections]
      exact mem_tieConnections.mpr ⟨ht, fun he => hne he.symm⟩
    exact hnew (hn.sides p t hc).1
  have hroot : anchorOf ties p = p := by
    by_cases hmem : p ∈ ties.map Prod.fst
    · obtain ⟨⟨p', t⟩, ht, rfl⟩ := List.mem_map.mp hmem
      rw [h.tied.anchored.anchorOf_eq ht, hself t ht]
    · exact anchorOf_of_not_mem hmem
  rw [h.root_eq, h.root_eq, hroot] at hq
  by_contra hne
  by_cases hmem : q ∈ ties.map Prod.fst
  · obtain ⟨⟨q', t⟩, ht, rfl⟩ := List.mem_map.mp hmem
    obtain rfl : t = p := (h.tied.anchored.anchorOf_eq ht).symm.trans hq
    have hc : ([q'], [t]) ∈ d.module.connections := by
      rw [h.tied.connections]
      exact mem_tieConnections.mpr ⟨ht, hne⟩
    rcases (hn.sides q' t hc).2 with hconst | hlog
    · rw [hp] at hconst
      cases hconst
    · exact hnew hlog
  · exact hne ((anchorOf_of_not_mem hmem).symm.trans hq)

end Sound

end

end NetlistJson

end ClockNet

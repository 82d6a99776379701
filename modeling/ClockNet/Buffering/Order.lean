import ClockNet.Design
import ClockNet.Selection

/-! The order in which modules are visited: each after the modules that it instantiates.
The walk keeps a list of what is left to do, entering a module and leaving it; a module is
visited when it is left. A module that is entered again, be it within itself, has been seen
and is passed over, so a cyclic hierarchy does not loop. -/

namespace ClockNet.Buffering

inductive Visit where
  | enter (module : String)
  | leave (module : String)
deriving DecidableEq, Inhabited

/-- How many modules have not been entered yet. -/
def unseen (d : Design) (seen : List String) : Nat :=
  d.modules.countP fun m => !seen.contains m.name

theorem unseen_lt {d : Design} {seen : List String} {name : String} {m : Module}
    (h : d.find? name = some m) (hn : ¬ name ∈ seen) :
    unseen d (name :: seen) < unseen d seen := by
  have hm := List.mem_of_find?_eq_some h
  have hname : m.name = name := by simpa using List.find?_some h
  have himp : ∀ x : Module, (!(name :: seen).contains x.name) = true →
      (!seen.contains x.name) = true := by
    intro x hx
    simp only [List.contains_cons, Bool.not_or, Bool.and_eq_true] at hx
    exact hx.2
  have hnew : (!(name :: seen).contains m.name) = false := by
    simp only [List.contains_cons, hname, beq_self_eq_true, Bool.true_or, Bool.not_true]
  have hold : (!seen.contains m.name) = true := by
    rw [hname, Bool.not_eq_true', List.contains_eq_mem]
    exact decide_eq_false hn
  unfold unseen
  generalize d.modules = modules at hm
  induction modules with
  | nil => cases hm
  | cons a rest ih =>
    have hle : rest.countP (fun m => !(name :: seen).contains m.name) ≤
        rest.countP (fun m => !seen.contains m.name) :=
      List.countP_mono_left fun x _ hx => himp x hx
    rw [List.countP_cons, List.countP_cons]
    rcases List.mem_cons.mp hm with rfl | hm
    · rw [if_neg (by rw [hnew]; exact Bool.false_ne_true), if_pos hold]
      omega
    · have hlt := ih hm
      by_cases ha : (!(name :: seen).contains a.name) = true
      · rw [if_pos ha, if_pos (himp a ha)]
        omega
      · rw [if_neg ha]
        omega

/-- Carries out what is left to do, given the modules entered and those left so far. -/
def walk (d : Design) (todo : List Visit) (seen order : List String) : List String :=
  match todo with
  | [] => order
  | .leave name :: todo => walk d todo seen (order ++ [name])
  | .enter name :: todo =>
    match _h : d.find? name with
    | none => walk d todo seen order
    | some m =>
      if _hn : name ∈ seen then walk d todo seen order
      else
        walk d (m.cells.map (fun c => .enter c.type) ++ .leave name :: todo) (name :: seen) order
termination_by (unseen d seen, todo.length)
decreasing_by
  · exact Prod.Lex.right _ (Nat.lt_succ_self _)
  · exact Prod.Lex.right _ (Nat.lt_succ_self _)
  · exact Prod.Lex.right _ (Nat.lt_succ_self _)
  · exact Prod.Lex.left _ _ (unseen_lt _h _hn)

/-- A walk starts at a module that has contents and is selected. -/
def startsAt (selection : Option Selection) (m : Module) : Bool :=
  !m.isBlackbox && selection.all fun s => s.selectsModule m

/-- The names of the modules to visit, in order. -/
def moduleOrder (d : Design) (selection : Option Selection) : List String :=
  walk d ((d.modules.filter (startsAt selection)).map fun m => .enter m.name) [] []

/-! The walk as a descent, which calls itself for each instance of a module. -/

/-- The modules entered so far, and those left so far in order. -/
structure Trail where
  seen : List String := []
  order : List String := []
deriving DecidableEq

/-- Enters a module that has not been entered yet, goes down into its instances and leaves it.
There is no bound on the depth: a descent without end would have no result. -/
def Trail.descend (t : Trail) (d : Design) (name : String) : Option Trail :=
  if name ∈ t.seen then some t
  else
    match d.find? name with
    | none => some { t with seen := name :: t.seen }
    | some m => do
      let t ← ((m.cells.map (·.type)).filter fun type => (d.find? type).isSome).foldlM
        (fun (t : Trail) type => t |>.descend d type) { t with seen := name :: t.seen }
      some { t with order := t.order ++ [name] }
partial_fixpoint

/-- Descends from each module that a walk may start at. -/
def schedule (d : Design) (selection : Option Selection) : Option (List String) := do
  let t ← ((d.modules.filter (startsAt selection)).map (·.name)).foldlM
    (fun (t : Trail) name => t.descend d name) {}
  some t.order

end ClockNet.Buffering

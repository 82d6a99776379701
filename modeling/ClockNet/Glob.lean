/-! Name patterns. A `?` stands for any character, a `*` for a run of characters, and any
other character for itself. A pattern is matched from left to right; a mismatch gives one
more character to the last star that was passed. A star in the text is taken as equal to a
star in the pattern before the latter is taken as a run. -/

namespace ClockNet.Glob

/-- How far a pattern goes along a text without giving characters to a star. -/
inductive Run where
  /-- The text is used up; the rest of the pattern is left. -/
  | ended (pattern : List Char)
  /-- A star was reached; the pattern after it and the text from there are left. -/
  | star (pattern text : List Char)
  /-- The next characters do not match. -/
  | stuck

/-- Matches characters one by one up to a star, a mismatch or the end of the text. -/
def run : (pattern text : List Char) → Run
  | pattern, [] => .ended pattern
  | [], _ :: _ => .stuck
  | p :: pattern, t :: text =>
    if p = '?' || p = t then run pattern text
    else if p = '*' then .star pattern (t :: text)
    else .stuck

theorem run_star_length {pattern text pattern' text' : List Char}
    (h : run pattern text = .star pattern' text') : pattern'.length < pattern.length := by
  induction text generalizing pattern with
  | nil => simp [run] at h
  | cons t text ih =>
    cases pattern with
    | nil => simp [run] at h
    | cons p pattern =>
      simp only [run] at h
      split at h
      · exact Nat.lt_succ_of_lt (ih h)
      · split at h
        · cases h; exact Nat.lt_succ_self _
        · cases h

/-- Only stars are left, which may all stand for nothing. -/
def onlyStars (pattern : List Char) : Bool := pattern.all (· == '*')

/-- Matches what follows a star, giving it ever more characters until the rest fits. -/
def matchAfterStar (pattern text : List Char) : Bool :=
  match _h : run pattern text with
  | .ended rest => onlyStars rest
  | .star pattern' text' => matchAfterStar pattern' text'
  | .stuck =>
    match text with
    | [] => false
    | _ :: text => matchAfterStar pattern text
termination_by (pattern.length, text.length)
decreasing_by
  · exact Prod.Lex.left _ _ (run_star_length _h)
  · exact Prod.Lex.right _ (Nat.lt_succ_self _)

/-- A pattern covers a whole text. -/
def matchChars (pattern text : List Char) : Bool :=
  match run pattern text with
  | .ended rest => onlyStars rest
  | .star pattern' text' => matchAfterStar pattern' text'
  | .stuck => false

/-- How far a search has come: the places in the pattern and in the text that come next, and those
of the last star that was passed and of the first character that it has not been given. -/
structure Cursor where
  pattern : Nat := 0
  text : Nat := 0
  star : Option (Nat × Nat) := none

/-- Searches on from a cursor until the text is used up or a mismatch has no star before it. There
is no bound on the number of turns, and no result if the pattern is left behind its end. -/
def Cursor.search (c : Cursor) (pattern text : List Char) : Option Bool :=
  if c.text < text.length then
    if c.pattern < pattern.length ∧
        (pattern[c.pattern]? = some '?' ∨ pattern[c.pattern]? = text[c.text]?) then
      { c with pattern := c.pattern + 1, text := c.text + 1 } |>.search pattern text
    else if pattern[c.pattern]? = some '*' then
      Cursor.mk (c.pattern + 1) c.text (some (c.pattern, c.text)) |>.search pattern text
    else
      match c.star with
      | some (p, t) => Cursor.mk (p + 1) (t + 1) (some (p, t + 1)) |>.search pattern text
      | none => some false
  else if c.pattern ≤ pattern.length then some (onlyStars (pattern.drop c.pattern))
  else none
partial_fixpoint

def covers (pattern name : String) : Bool := matchChars pattern.toList name.toList

end ClockNet.Glob

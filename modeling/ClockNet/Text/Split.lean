import ClockNet.Text.Blank

/-! Cutting a text at separators. -/

namespace ClockNet.Text

/-- The text before the first `separator` and the text after it, if there is one. -/
def splitAtFirst (separator : Char) (text : List Char) : Option (List Char × List Char) :=
  match text.span (· != separator) with
  | (before, _ :: after) => some (before, after)
  | (_, []) => none

/-- The pieces between separators, of which there is one more than separators. -/
def pieces (isSeparator : Char → Bool) : List Char → List (List Char)
  | [] => [[]]
  | c :: rest =>
    if isSeparator c then [] :: pieces isSeparator rest
    else
      match pieces isSeparator rest with
      | piece :: more => (c :: piece) :: more
      | [] => [[c]]

/-- The words of a text, separated by white space. -/
def words (text : List Char) : List (List Char) := (pieces isBlank text).filter (· ≠ [])

/-- A text cut at the first `separator`. -/
def splitString (separator : Char) (text : String) : Option (String × String) :=
  (splitAtFirst separator text.toList).map fun p => (String.ofList p.1, String.ofList p.2)

end ClockNet.Text

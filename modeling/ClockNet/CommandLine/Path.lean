import ClockNet.Text.Split

/-! Paths of files. A path is walked name by name, from the root if it begins with a slash and
from the working directory otherwise. The name `.` stays in a directory and `..` leaves it for
the one above. -/

namespace ClockNet.CommandLine

namespace Path

/-- The most bytes that a path may have. -/
def maxBytes : Nat := 4095

/-- The most bytes that one name of a path may have. -/
def maxNameBytes : Nat := 255

/-- The names along a path, in order. Slashes that follow each other are one. -/
def steps (path : String) : List String :=
  ((Text.pieces (· == '/') path.toList).filter (· ≠ [])).map String.ofList

/-- The names along a path, without those that stay where they are. -/
def names (path : String) : List String := (steps path).filter (· ≠ ".")

/-- A path that can only lead to a directory. -/
def endsInSlash (path : String) : Bool := path.toList.getLast? = some '/'

/-- What follows the last point of the last name, unless the name begins with it. -/
def extension? (path : String) : Option String :=
  match (names path).getLast? with
  | none => none
  | some name =>
    if name = ".." then none
    else
      match name.toList.reverse.span (· != '.') with
      | (_, []) | (_, [_]) => none
      | (reversed, _ :: _ :: _) => some (String.ofList reversed.reverse)

end Path

/-- The names that lead to a file or a directory from the working directory, which come after
a `..` for each directory that is left, or from the root, which is named by a slash. -/
abbrev Place := List String

namespace Place

/-- Where the walk of a path begins. -/
def start (path : String) : Place := if path.toList.head? = some '/' then ["/"] else []

/-- The working directory, those that hold it, and the root. -/
def isAbove (place : Place) : Bool := place = ["/"] || place.all (· = "..")

/-- The directory above a directory. Above the root there is none but itself. -/
def parent (place : Place) : Place :=
  if place = ["/"] then place
  else if place.isAbove then place ++ [".."]
  else place.dropLast

/-- From a directory in the working directory two steps up lead out of that one. -/
example : Place.parent (Place.parent ["a"]) = [".."] ∧ Place.parent ["/"] = ["/"] := by decide

end Place

end ClockNet.CommandLine

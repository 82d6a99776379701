import ClockNet.CommandLine.Path

/-! Files, as far as they lie where a command is run. A directory is there if a file is in it
or if it is above the working directory. -/

namespace ClockNet.CommandLine

inductive FileFault where
  | missing
  | notDirectory
  | isDirectory
  | nameTooLong
  | notText
deriving DecidableEq, Inhabited

namespace FileFault

def message : FileFault → String
  | missing => "No such file or directory (os error 2)"
  | notDirectory => "Not a directory (os error 20)"
  | isDirectory => "Is a directory (os error 21)"
  | nameTooLong => "File name too long (os error 36)"
  | notText => "stream did not contain valid UTF-8"

/-- The fault of a number that the system gives for it. -/
def ofCode? : Nat → Option FileFault
  | 2 => some missing
  | 20 => some notDirectory
  | 21 => some isDirectory
  | 36 => some nameTooLong
  | _ => none

end FileFault

/-- The place of a name in a directory, whether anything is there or not. -/
def Place.step (directory : Place) (name : String) : Except FileFault Place :=
  if name = "." then .ok directory
  else if name = ".." then .ok directory.parent
  else if Path.maxNameBytes < name.utf8ByteSize then .error .nameTooLong
  else .ok (directory ++ [name])

/-- The contents of the files by their places. -/
structure Disk where
  files : List (Place × List UInt8) := []
deriving DecidableEq, Inhabited

namespace Disk

def find? (d : Disk) (place : Place) : Option (List UInt8) :=
  (d.files.find? (·.1 == place)).map (·.2)

/-- The directory of this place is there. -/
def hasDirectory (d : Disk) (place : Place) : Bool :=
  place.isAbove || d.files.any fun f => place.isPrefixOf f.1 && f.1 != place

/-- Walks from a directory into one that is there. -/
def enter (d : Disk) (directory : Place) (name : String) : Except FileFault Place := do
  let place ← directory.step name
  if d.hasDirectory place then .ok place
  else .error (if (d.find? place).isSome then .notDirectory else .missing)

/-- The directory that all names of a path but the last lead to. -/
def directoryOf (d : Disk) (path : String) : Except FileFault Place :=
  if path = "" then .error .missing
  else if Path.maxBytes < path.utf8ByteSize then .error .nameTooLong
  else (Path.steps path).dropLast.foldlM d.enter (Place.start path)

/-- The place of the last name of a path. -/
def placeIn (directory : Place) (path : String) : Except FileFault Place :=
  match (Path.steps path).getLast? with
  | some name => directory.step name
  | none => .ok directory

def read (d : Disk) (path : String) : Except FileFault (List UInt8) := do
  let place ← placeIn (← d.directoryOf path) path
  if d.hasDirectory place then .error .isDirectory
  else
    match d.find? place with
    | some contents => if Path.endsInSlash path then .error .notDirectory else .ok contents
    | none => .error .missing

def set (d : Disk) (place : Place) (contents : List UInt8) : Disk :=
  ⟨(place, contents) :: d.files.filter (·.1 != place)⟩

/-- The place at which a file of this path would be created. -/
def target (d : Disk) (path : String) : Except FileFault Place := do
  let directory ← d.directoryOf path
  if Path.endsInSlash path then .error .isDirectory
  else do
    let place ← placeIn directory path
    if d.hasDirectory place then .error .isDirectory else .ok place

end Disk

end ClockNet.CommandLine

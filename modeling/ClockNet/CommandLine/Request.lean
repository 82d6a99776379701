import ClockNet.CommandLine.World

/-! A command as a function from arguments and files to what it leaves behind. -/

namespace ClockNet.CommandLine

structure Outcome where
  status : Nat
  stdout : String := ""
  error : Option String := none
  disk : Disk
deriving DecidableEq, Inhabited

/-- Runs a command on the files of the working directory. Arguments that cannot be sorted
out give status 2, any failure status 1. -/
def run (arguments : List String) (disk : Disk) : Outcome :=
  match Arguments.parse? arguments with
  | none => { status := 2, disk }
  | some a =>
    let (result, world) := (perform World.host a).run { disk }
    let stdout := String.ofList (Text.decodeLossy world.stdout)
    match result with
    | .ok () => { status := 0, stdout, disk := world.disk }
    | .error t => { status := 1, stdout, error := some t.line, disk := world.disk }

end ClockNet.CommandLine

import ClockNet.CommandLine.Perform

/-! The command: reads a netlist, inserts clock buffers and writes the result. -/

namespace ClockNet.CommandLine

/-- Shown where the arguments cannot be sorted out. -/
def usage : String := "usage: clkbufmap [OPTIONS] INPUT [OUTPUT]"

/-- The number of a fault that the system reports, which is given with either sign. -/
def codeOf? : IO.Error → Option Nat
  | .noFileOrDirectory _ code _ | .inappropriateType _ code _ | .invalidArgument _ code _ =>
    some code.toInt32.toInt.natAbs
  | _ => none

/-- The line for a fault of a file that the system reports, if it is one that is known by its
number, and the system's own words otherwise. -/
def systemError (failure : FileFault → Failure) (path : String) (e : IO.Error) : String :=
  match (codeOf? e).bind FileFault.ofCode? with
  | some fault => errorLine (failure fault)
  | none => "error: " ++ path ++ ": " ++ toString e

/-- The files of the system. -/
def systemHost : Host IO.Error IO.FS.Handle IO where
  read path := do
    let contents ← EIO.toBaseIO (IO.FS.readBinFile path)
    return contents.map (·.toList)
  create path := EIO.toBaseIO (IO.FS.Handle.mk path .write)
  write file text := EIO.toBaseIO do
    file.putStr text
    file.flush
  print text := EIO.toBaseIO do
    let out ← IO.getStdout
    out.putStr text
    out.flush

/-- The line for a trouble with the files of the system. -/
def systemLine : Trouble IO.Error → String
  | .request f => errorLine f
  | .input format path e => systemError (format.failure path) path e
  | .output (some path) e => systemError (.file path) path e
  | .output none e => "error: <stdout>: " ++ toString e

def report (line : String) (status : UInt32) : IO UInt32 := do
  IO.eprintln line
  return status

def command (arguments : List String) : IO UInt32 := do
  match Arguments.parse? arguments with
  | none => report usage 2
  | some a =>
    match ← perform systemHost a with
    | .ok () => return 0
    | .error t => report (systemLine t) 1

end ClockNet.CommandLine

def main (arguments : List String) : IO UInt32 := ClockNet.CommandLine.command arguments

import ClockNet.Buffering.Run
import ClockNet.CommandLine.Arguments
import ClockNet.CommandLine.Disk
import ClockNet.NetlistJson.Import
import ClockNet.NetlistJson.Printer
import ClockNet.Rtlil.Parser
import ClockNet.Selection.Parser

/-! What the arguments ask for, and the answer to it, which depends on what the input holds and on
nothing else. A request is checked before anything is read. -/

namespace ClockNet.CommandLine

open Buffering (BufferSpec GeneratedClock Options OptionError)

inductive Format where
  | json | rtlil
deriving DecidableEq, Inhabited

inductive Failure where
  /-- A cell type without ports, or ports without a cell type. -/
  | incompleteCell (option : String)
  | expectedTypeAndPort (option value : String)
  | incompleteClock
  | selection (error : SelectionError)
  | options (error : OptionError)
  | unknownFormat (path : String)
  | file (path : String) (fault : FileFault)
  | rtlil (path : String) (error : Rtlil.ParseError)
  | json (path : String) (error : NetlistJson.ImportError)
  /-- A JSON netlist that can be opened but not read. -/
  | jsonText (path : String) (fault : FileFault)
deriving Inhabited

namespace Failure

def message : Failure → String
  | incompleteCell option =>
    "--" ++ option ++ " and --" ++ option ++ "-ports must be given together"
  | expectedTypeAndPort option value =>
    "--" ++ option ++ " expects TYPE:PORT, found \x60" ++ value ++ "\x60"
  | incompleteClock => "--gclk-cell and --gclk-buf must be given together"
  | selection error => error.message
  | options error => error.message
  | unknownFormat path => path ++ ": unknown netlist format (expected .json or .il)"
  | file path fault => path ++ ": " ++ fault.message
  | rtlil path error => path ++ ": " ++ error.message
  | json path error => path ++ ": " ++ error.message
  | jsonText path fault => path ++ ": I/O error: " ++ fault.message

end Failure

namespace Format

def ofPath (path : String) : Except Failure Format :=
  match Path.extension? path with
  | some "json" => .ok .json
  | some "il" => .ok .rtlil
  | _ => .error (.unknownFormat path)

/-- What a fault of the input stands for. A directory can be opened, and that it has no text
is a fault of the netlist where the netlist is JSON. -/
def failure (path : String) (fault : FileFault) : Format → Failure
  | json => if fault = .isDirectory then .jsonText path fault else .file path fault
  | rtlil => .file path fault

def read (path : String) (contents : List UInt8) : Format → Except Failure Design
  | json => (NetlistJson.ofBytes contents).mapError (.json path)
  | rtlil =>
    match Text.decode? contents with
    | none => .error (.file path .notText)
    | some text => (Rtlil.parse (String.ofList text)).mapError (.rtlil path)

def print (d : Design) : Format → String
  | json => NetlistJson.print d
  | rtlil => Rtlil.print d

end Format

/-- A cell type with its ports, which are given both or not at all. -/
def bufferSpec (option : String) (type ports : Option String) :
    Except Failure (Option BufferSpec) :=
  match type, ports with
  | none, none => .ok none
  | some type, some ports => some <$> (BufferSpec.parse type ports).mapError .options
  | _, _ => .error (.incompleteCell option)

/-- A cell type and a port, neither of them empty. -/
def typeAndPort (option value : String) : Except Failure (String × String) :=
  match Text.splitString ':' value with
  | some (type, port) =>
    if type = "" || port = "" then .error (.expectedTypeAndPort option value)
    else .ok (type, port)
  | none => .error (.expectedTypeAndPort option value)

namespace Arguments

/-- The rule for generated clocks, of which the cell and the buffer are given both or not at
all, and the input buffer only with them. -/
def generatedClock (a : Arguments) : Except Failure (Option GeneratedClock) :=
  match a.clockCell, a.clockBuffer with
  | some cell, some bufferType => do
    let (type, clockPort) ← typeAndPort "gclk-cell" cell
    let inputBuffer ← match a.clockInputBuffer with
      | some value => some <$> typeAndPort "gclk-ibuf" value
      | none => .ok none
    .ok (some { type, clockPort, inputBuffer, bufferType })
  | none, none => if a.clockInputBuffer.isNone then .ok none else .error .incompleteClock
  | _, _ => .error .incompleteClock

def options (a : Arguments) : Except Failure Options := do
  let buffer ← bufferSpec "buf" a.buffer a.bufferPorts
  let pad ← bufferSpec "inpad" a.pad a.padPorts
  let selection ← match a.select with
    | some text => some <$> (Selection.parse text).mapError .selection
    | none => .ok none
  let generatedClock ← a.generatedClock
  .ok { buffer, pad, selection, exempt := a.exempt, generatedClock }

end Arguments

/-- A command that has been checked as far as its arguments go. -/
structure Request where
  options : Options
  input : String
  inputFormat : Format
  /-- The file to write; without one the answer goes to the standard output. -/
  output : Option String
  outputFormat : Format
deriving DecidableEq, Inhabited

namespace Request

/-- Without an output the format is that of the input. -/
def ofArguments (a : Arguments) : Except Failure Request := do
  let options ← a.options
  let inputFormat ← Format.ofPath a.input
  let outputFormat ← match a.output with
    | some path => Format.ofPath path
    | none => .ok inputFormat
  .ok { options, input := a.input, inputFormat, output := a.output, outputFormat }

/-- The text to write, given the contents of the input. -/
def answer (r : Request) (contents : List UInt8) : Except Failure String := do
  let d ← r.inputFormat.read r.input contents
  let p ← (Buffering.run r.options d).mapError .options
  .ok (r.outputFormat.print p.design)

end Request

def errorLine (f : Failure) : String := "error: " ++ f.message

end ClockNet.CommandLine

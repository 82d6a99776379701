import ClockNet.Text.Split

/-! The arguments of the command: options with a value each, and one or two file names. -/

namespace ClockNet.CommandLine

/-- The arguments after they have been sorted out. An option given twice keeps its last
value. -/
structure Arguments where
  input : String
  output : Option String := none
  buffer : Option String := none
  bufferPorts : Option String := none
  pad : Option String := none
  padPorts : Option String := none
  select : Option String := none
  /-- The values of a repeatable option, in order. -/
  exempt : List String := []
  clockCell : Option String := none
  clockInputBuffer : Option String := none
  clockBuffer : Option String := none
deriving DecidableEq, Inhabited

namespace Arguments

def set? (a : Arguments) (name value : String) : Option Arguments :=
  match name with
  | "--buf" => some { a with buffer := some value }
  | "--buf-ports" => some { a with bufferPorts := some value }
  | "--inpad" => some { a with pad := some value }
  | "--inpad-ports" => some { a with padPorts := some value }
  | "--select" => some { a with select := some value }
  | "--exempt-driver" => some { a with exempt := a.exempt ++ [value] }
  | "--gclk-cell" => some { a with clockCell := some value }
  | "--gclk-ibuf" => some { a with clockInputBuffer := some value }
  | "--gclk-buf" => some { a with clockBuffer := some value }
  | _ => none

/-- An argument that is an option rather than a file name. A dash alone is a file name. -/
def isOption (argument : String) : Bool :=
  match argument.toList with
  | '-' :: _ :: _ => true
  | _ => false

/-- Sorts out arguments: `options` collects the options, `files` the file names. An option
takes the text after its equals sign as its value, or else the next argument whatever it is;
after two dashes all arguments are file names. -/
def collect (options : Arguments) (files : List String) :
    List String → Option (Arguments × List String)
  | [] => some (options, files)
  | argument :: rest =>
    if argument = "--" then some (options, files ++ rest)
    else if !isOption argument then collect options (files ++ [argument]) rest
    else
      match Text.splitString '=' argument with
      | some (name, value) => (options.set? name value).bind fun options =>
          collect options files rest
      | none =>
        match rest with
        | value :: rest => (options.set? argument value).bind fun options =>
            collect options files rest
        | [] => none

/-- Reads the arguments; there must be an input, and at most an output after it. -/
def parse? (arguments : List String) : Option Arguments :=
  match collect { input := "" } [] arguments with
  | some (options, [input]) => some { options with input }
  | some (options, [input, output]) => some { options with input, output := some output }
  | _ => none

end Arguments

end ClockNet.CommandLine

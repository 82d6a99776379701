import ClockNet.CommandLine.Answer

/-! What a command does to files and to the standard output, step by step. The steps are those of
any host that can read, create and write files, and nothing undoes one that has been taken: a file
that has been created is empty, and stays so if nothing can be written to it. -/

namespace ClockNet.CommandLine

/-- The operations that a command uses, each of which may fault. -/
structure Host (ε η : Type) (m : Type → Type) where
  /-- All bytes of a file. -/
  read : String → m (Except ε (List UInt8))
  /-- Creates a file, or empties the one that is there, and opens it. -/
  create : String → m (Except ε η)
  /-- Appends a text to a file that is open. -/
  write : η → String → m (Except ε Unit)
  print : String → m (Except ε Unit)

/-- Why a command fails: by what it asks for or reads, or by a fault of the host. -/
inductive Trouble (ε : Type) where
  | request (failure : Failure)
  | input (format : Format) (path : String) (fault : ε)
  /-- A fault at the output file, or at the standard output where there is none. -/
  | output (path : Option String) (fault : ε)

section
variable {ε η : Type} {m : Type → Type} [Monad m]

/-- Writes the answer to where it was asked for. -/
def deliver (host : Host ε η m) (output : Option String) (text : String) :
    m (Except (Trouble ε) Unit) :=
  match output with
  | none => (·.mapError (.output none)) <$> host.print text
  | some path => do
    match ← host.create path with
    | .error e => return .error (.output path e)
    | .ok file => (·.mapError (.output path)) <$> host.write file text

def perform (host : Host ε η m) (a : Arguments) : m (Except (Trouble ε) Unit) :=
  match Request.ofArguments a with
  | .error f => return .error (.request f)
  | .ok r => do
    match ← host.read r.input with
    | .error e => return .error (.input r.inputFormat r.input e)
    | .ok contents =>
      match r.answer contents with
      | .error f => return .error (.request f)
      | .ok text => deliver host r.output text

end

end ClockNet.CommandLine

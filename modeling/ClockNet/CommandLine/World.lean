import ClockNet.CommandLine.Perform

/-! A host whose state is at hand: files by their places, the standard output, and room for so many
bytes more. -/

namespace ClockNet.CommandLine

inductive Fault where
  | file (fault : FileFault)
  /-- There is no room for more. -/
  | full
deriving DecidableEq

def Fault.message : Fault → String
  | file fault => fault.message
  | full => "No space left on device (os error 28)"

def Trouble.line : Trouble Fault → String
  | request f => errorLine f
  | input format path (.file fault) => errorLine (format.failure path fault)
  | output (some path) (.file fault) => errorLine (.file path fault)
  | input _ path fault | output (some path) fault => "error: " ++ path ++ ": " ++ fault.message
  | output none fault => "error: <stdout>: " ++ fault.message

/-- Files, what has come out on the standard output, and how many bytes may still be written if
there is a bound. -/
structure World where
  disk : Disk
  stdout : List UInt8 := []
  room : Option Nat := none
deriving DecidableEq

namespace World

/-- How many of some bytes find room. -/
def accepted (w : World) (bytes : List UInt8) : Nat := w.room.elim bytes.length (min bytes.length)

def roomAfter (w : World) (bytes : List UInt8) : Option Nat := w.room.map (· - bytes.length)

/-- Whether bytes have been written depends on the room for all of them. -/
def verdict (w : World) (bytes : List UInt8) : Except Fault Unit :=
  if w.accepted bytes = bytes.length then .ok () else .error .full

def read (path : String) : StateM World (Except Fault (List UInt8)) := fun w =>
  ((w.disk.read path).mapError .file, w)

def create (path : String) : StateM World (Except Fault Place) := fun w =>
  match w.disk.target path with
  | .error fault => (.error (.file fault), w)
  | .ok place => (.ok place, { w with disk := w.disk.set place [] })

def write (place : Place) (text : String) : StateM World (Except Fault Unit) := fun w =>
  let bytes := Text.encode text.toList
  let old := (w.disk.find? place).getD []
  (w.verdict bytes, { w with
    disk := w.disk.set place (old ++ bytes.take (w.accepted bytes)), room := w.roomAfter bytes })

def print (text : String) : StateM World (Except Fault Unit) := fun w =>
  let bytes := Text.encode text.toList
  (w.verdict bytes, { w with
    stdout := w.stdout ++ bytes.take (w.accepted bytes), room := w.roomAfter bytes })

def host : Host Fault Place (StateM World) := { read, create, write, print }

end World

end ClockNet.CommandLine

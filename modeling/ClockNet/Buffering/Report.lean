import ClockNet.Text.Quoted

/-! What a run reports: numbers, and the events on the way to them. -/

namespace ClockNet.Buffering

structure Stats where
  /-- Buffer cells inserted, those for generated clocks included. -/
  buffers : Nat := 0
  pads : Nat := 0
  generatedClocks : Nat := 0
  renamedPorts : Nat := 0
  restoredPorts : Nat := 0
deriving DecidableEq, Inhabited

namespace Stats

def text (s : Stats) : String :=
  toString s.buffers ++ " buffers, " ++ toString s.pads ++ " pads, " ++
    toString s.generatedClocks ++ " generated clocks, " ++
    toString s.renamedPorts ++ " renamed ports, " ++
    toString s.restoredPorts ++ " restored ports"

end Stats

inductive Event where
  /-- The modules in the order in which they are visited. -/
  | order (modules : List String)
  /-- How many nets of a module need a buffer, and how many have one. -/
  | classified (sinks buffered : Nat)
  | generatedClock (bit module : String)
  | inserting (type module wire : String) (index : Nat)
  | restoring (cell port : String)
  | finished (stats : Stats)
deriving DecidableEq, Inhabited

namespace Event

def nameList (names : List String) : String :=
  "[" ++ String.intercalate ", " (names.map Text.quoted) ++ "]"

/-- The line of a log for an event, which begins with its level. -/
def line : Event → String
  | order modules => "DEBUG module order order=" ++ nameList modules
  | classified sinks buffered =>
    "DEBUG classified sinks=" ++ toString sinks ++ " buffered=" ++ toString buffered
  | generatedClock bit module => "WARN " ++ bit ++ " is a generated clock module=" ++ module
  | inserting type module wire index =>
    "INFO inserting " ++ type ++ " on " ++ module ++ "." ++ wire ++ "[" ++ toString index ++ "]"
  | restoring cell port => "DEBUG restoring input driver cell=" ++ cell ++ " port=" ++ port
  | finished stats => "DEBUG finished stats=" ++ stats.text

end Event

end ClockNet.Buffering

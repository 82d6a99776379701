import ClockNet.Design
import ClockNet.Rtlil.Token

/-! Writing a design as netlist text. A design becomes lines of tokens, and tokens have one
spelling each; an empty line stands between modules. Tokens of one group are written
without a space between them. -/

namespace ClockNet.Rtlil

/-- A line of text: groups of tokens after an indentation. -/
structure Line where
  indent : Nat
  groups : List (List Token)
deriving DecidableEq, Inhabited

namespace Line

def spell (l : Line) : String :=
  String.ofList (List.replicate l.indent ' ') ++
    String.intercalate " " (l.groups.map fun g => String.join (g.map Token.spell)) ++ "\n"

def ofTokens (indent : Nat) (tokens : List Token) : Line := ⟨indent, tokens.map fun t => [t]⟩

end Line

/-! ### Values and signals -/

/-- A constant of 32 bits that is a non-negative number is written in decimal. -/
def valueToken : Value → Token
  | .const c =>
    match c.toNat? with
    | some n => if c.length = 32 ∧ n < 0x80000000 then .int n else .const c
    | none => .const c
  | .text s => .text s

/-- The part of a wire that a chunk takes: nothing more for all of it, an index for one
bit, otherwise the indices of the most and the least significant bit. -/
def sliceTokens (w : Wire) (offset length : Nat) : List (List Token) :=
  if length = w.width then []
  else if length = 1 then [[.mark '[', .int (w.indexAt offset), .mark ']']]
  else [[.mark '[', .int (w.indexAt (offset + length - 1)), .mark ':',
    .int (w.indexAt offset), .mark ']']]

def chunkGroups (m : Module) (chunk : Signal) : List (List Token) :=
  match chunk with
  | .wire id offset :: _ =>
    [.name (m.wire id).name] :: sliceTokens (m.wire id) offset chunk.length
  | chunk => [[.const (chunk.filterMap Bit.const?)]]

/-- A signal of one chunk is that chunk; any other is a list of chunks in braces, most
significant first. -/
def signalGroups (m : Module) (s : Signal) : List (List Token) :=
  match s.chunks with
  | [chunk] => chunkGroups m chunk
  | chunks =>
    [[.mark '\x7b']] ++ chunks.reverse.flatMap (chunkGroups m) ++ [[.mark '\x7d']]

/-- A signal as text, with the names that its wires have in a module. -/
def spellSignal (m : Module) (s : Signal) : String :=
  String.intercalate " " ((signalGroups m s).map fun g => String.join (g.map Token.spell))

/-! ### Modules -/

def attributeLines (indent : Nat) (a : Attributes) : List Line :=
  a.entries.map fun e => .ofTokens indent [.word "attribute", .name e.1, valueToken e.2]

/-- The options of a wire that differ from those of an internal wire of one bit. -/
def wireOptions (w : Wire) : List Token :=
  (if w.width = 1 then [] else [.word "width", .int w.width]) ++
  (if w.upto then [.word "upto"] else []) ++
  (if w.offset = 0 then [] else [.word "offset", .int w.offset]) ++
  (match w.direction with
    | some .inout => [.word "inout", .int w.position]
    | some .input => [.word "input", .int w.position]
    | some .output => [.word "output", .int w.position]
    | none => []) ++
  (if w.signed then [.word "signed"] else [])

def wireLines (w : Wire) : List Line :=
  attributeLines 2 w.attributes ++
    [.ofTokens 2 (.word "wire" :: wireOptions w ++ [.name w.name])]

def cellLines (m : Module) (c : Cell) : List Line :=
  attributeLines 2 c.attributes ++
  [.ofTokens 2 [.word "cell", .name c.type, .name c.name]] ++
  (c.parameters.entries.map fun e =>
    .ofTokens 4 [.word "parameter", .name e.1, valueToken e.2]) ++
  (c.ports.entries.map fun e =>
    ⟨4, [[.word "connect"], [.name e.1]] ++ signalGroups m e.2⟩) ++
  [.ofTokens 2 [.word "end"]]

def connectionLine (m : Module) (c : Signal × Signal) : Line :=
  ⟨2, [[.word "connect"]] ++ signalGroups m c.1 ++ signalGroups m c.2⟩

def moduleLines (m : Module) : List Line :=
  attributeLines 0 m.attributes ++
  [.ofTokens 0 [.word "module", .name m.name]] ++
  m.wires.flatMap wireLines ++
  m.cells.flatMap (cellLines m) ++
  m.connections.map (connectionLine m) ++
  [.ofTokens 0 [.word "end"]]

/-- The lines of a design, with an empty one between modules. -/
def designLines (d : Design) : List Line :=
  ([⟨0, []⟩] : List Line).intercalate (d.modules.map moduleLines)

/-- A design as netlist text. -/
def print (d : Design) : String := String.join ((designLines d).map Line.spell)

/-- Every signal of a module refers to wires that it has, so that all have a name to be
written by. -/
def isPrintable (d : Design) : Bool :=
  d.modules.all fun m =>
    (m.cells.all fun c => c.ports.entries.all fun e => m.resolves e.2) &&
      m.connections.all fun c => m.resolves c.1 && m.resolves c.2

end ClockNet.Rtlil

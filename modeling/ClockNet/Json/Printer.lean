import ClockNet.Json.Value

/-! Writing JSON values, on one line for messages and over many lines for files. -/

namespace ClockNet.Json

/-- One character of a string. Quotes, backslashes and the controls below the space are
escaped; all else is written as it is. -/
def escapeChar (c : Char) : List Char :=
  if c = '"' then ['\\', '"']
  else if c = '\\' then ['\\', '\\']
  else if c = '\x08' then ['\\', 'b']
  else if c = '\t' then ['\\', 't']
  else if c = '\n' then ['\\', 'n']
  else if c = '\x0c' then ['\\', 'f']
  else if c = '\r' then ['\\', 'r']
  else if c.toNat < 0x20 then
    ['\\', 'u', '0', '0', Nat.digitChar (c.toNat / 16), Nat.digitChar (c.toNat % 16)]
  else [c]

def quote (s : String) : List Char := '"' :: s.toList.flatMap escapeChar ++ ['"']

mutual

/-- A value on one line, without spaces. -/
def compactChars : Json → List Char
  | null => "null".toList
  | bool true => "true".toList
  | bool false => "false".toList
  | number n => n.chars
  | string s => quote s
  | array items => '[' :: compactItems items ++ [']']
  | object fields => '\x7b' :: compactFields fields ++ ['\x7d']

def compactItems : List Json → List Char
  | [] => []
  | [j] => compactChars j
  | j :: rest => compactChars j ++ ',' :: compactItems rest

def compactFields : List (String × Json) → List Char
  | [] => []
  | [(name, j)] => quote name ++ ':' :: compactChars j
  | (name, j) :: rest => quote name ++ ':' :: compactChars j ++ ',' :: compactFields rest

end

/-- A value within a message: a string is its own text, all else is JSON. -/
def inMessage : Json → String
  | string s => s
  | j => String.ofList j.compactChars

/-- A new line with two spaces for each level. -/
def newLine (depth : Nat) : List Char := '\n' :: List.replicate (2 * depth) ' '

mutual

/-- A value with each item and each field on a line of its own. -/
def prettyChars (depth : Nat) : Json → List Char
  | null => "null".toList
  | bool true => "true".toList
  | bool false => "false".toList
  | number n => n.chars
  | string s => quote s
  | array [] => ['[', ']']
  | array items => '[' :: prettyItems (depth + 1) items ++ newLine depth ++ [']']
  | object [] => ['\x7b', '\x7d']
  | object fields => '\x7b' :: prettyFields (depth + 1) fields ++ newLine depth ++ ['\x7d']

/-- Items, each after a new line. -/
def prettyItems (depth : Nat) : List Json → List Char
  | [] => []
  | [j] => newLine depth ++ prettyChars depth j
  | j :: rest => newLine depth ++ prettyChars depth j ++ ',' :: prettyItems depth rest

/-- Fields, each after a new line. -/
def prettyFields (depth : Nat) : List (String × Json) → List Char
  | [] => []
  | [(name, j)] => newLine depth ++ quote name ++ [':', ' '] ++ prettyChars depth j
  | (name, j) :: rest =>
    newLine depth ++ quote name ++ [':', ' '] ++ prettyChars depth j ++
      ',' :: prettyFields depth rest

end

/-- A value as the text of a file, which ends with a new line. -/
def pretty (j : Json) : String := String.ofList (j.prettyChars 0 ++ ['\n'])

end ClockNet.Json

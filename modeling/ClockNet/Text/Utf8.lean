/-! Text and its bytes. Decoding takes one character at a time; bytes that begin no
character are given up in the longest run that still begins one, so that each run can be
shown as a single replacement character. -/

namespace ClockNet.Text

/-- The character shown in place of bytes that encode none. -/
def replacement : Char := '\uFFFD'

def encode (text : List Char) : List UInt8 := text.flatMap String.utf8EncodeChar

/-- How many continuation bytes follow a first byte, and the range of the first of them.
The ranges leave out longer spellings of a character, the surrogates, and everything
above the last character. -/
def leadByte (b : UInt8) : Option (Nat × UInt8 × UInt8) :=
  if 0xc2 ≤ b && b ≤ 0xdf then some (1, 0x80, 0xbf)
  else if b = 0xe0 then some (2, 0xa0, 0xbf)
  else if b = 0xed then some (2, 0x80, 0x9f)
  else if 0xe1 ≤ b && b ≤ 0xef then some (2, 0x80, 0xbf)
  else if b = 0xf0 then some (3, 0x90, 0xbf)
  else if 0xf1 ≤ b && b ≤ 0xf3 then some (3, 0x80, 0xbf)
  else if b = 0xf4 then some (3, 0x80, 0x8f)
  else none

/-- Reads `count` continuation bytes, the first between `low` and `high`, onto the bits
in `code`. A byte that does not continue the character is left for the next one. -/
def continued (code : Nat) : (count : Nat) → (low high : UInt8) → List UInt8 →
    Option Nat × List UInt8
  | 0, _, _, rest => (some code, rest)
  | _ + 1, _, _, [] => (none, [])
  | count + 1, low, high, b :: rest =>
    if low ≤ b && b ≤ high then
      continued (code * 64 + (b.toNat - 0x80)) count 0x80 0xbf rest
    else (none, b :: rest)

theorem continued_length (count code : Nat) (low high : UInt8) (bytes : List UInt8) :
    (continued code count low high bytes).2.length ≤ bytes.length := by
  induction count generalizing code low high bytes with
  | zero => simp [continued]
  | succ count ih =>
    cases bytes with
    | nil => simp [continued]
    | cons b rest =>
      simp only [continued]
      split
      · exact Nat.le_succ_of_le (ih _ _ _ rest)
      · exact Nat.le_refl _

/-- The bits of a first byte that belong to the character. -/
def leadBits (count : Nat) (b : UInt8) : Nat := b.toNat % (64 >>> count)

/-- The characters that bytes encode, `none` for each run that encodes no character. -/
def decodeRuns : List UInt8 → List (Option Char)
  | [] => []
  | b :: rest =>
    if b < 0x80 then some (Char.ofNat b.toNat) :: decodeRuns rest
    else
      match leadByte b with
      | none => none :: decodeRuns rest
      | some (count, low, high) =>
        let found := continued (leadBits count b) count low high rest
        found.1.map Char.ofNat :: decodeRuns found.2
termination_by bytes => bytes.length
decreasing_by
  · simp
  · simp
  · exact Nat.lt_succ_of_le (continued_length ..)

/-- Decodes bytes, with the replacement character for each run that encodes none. -/
def decodeLossy (bytes : List UInt8) : List Char :=
  (decodeRuns bytes).map (·.getD replacement)

/-- Decodes bytes that encode characters only. -/
def decode? (bytes : List UInt8) : Option (List Char) := (decodeRuns bytes).mapM id

end ClockNet.Text

/-
  JSON text as tokens.

  A token is read from the longest run of bytes that spells one, so blanks
  matter only between tokens.  Strings and numbers are kept as they are spelled:
  `Spelling.text?` decodes a string, and a string that is never decoded may hold
  escapes or bytes that spell no character.
-/

namespace ScheduleSearch.Json

/-- A part of a string: a byte as it is, or an escaped 16-bit unit. -/
inductive Piece where
  | byte (b : UInt8)
  | unit (u : Nat)
deriving DecidableEq, Repr

/-- A string between quotes, not decoded. -/
abbrev Spelling := List Piece

structure NumberText where
  negative : Bool
  whole : List Nat
  fraction : List Nat
  /-- the sign and the digits of the exponent -/
  exponent : Option (Bool × List Nat)
deriving DecidableEq, Repr

inductive Token where
  | openArray
  | closeArray
  | openObject
  | closeObject
  | comma
  | colon
  | null
  | bool (b : Bool)
  | number (n : NumberText)
  | text (s : Spelling)
deriving DecidableEq, Repr

/-! ## Characters as bytes -/

def byteOf (c : Char) : UInt8 := c.toNat.toUInt8

def isBlank (b : UInt8) : Bool :=
  b == byteOf ' ' || b == byteOf '\t' || b == byteOf '\n' || b == byteOf '\r'

def digit? (b : UInt8) : Option Nat :=
  if byteOf '0' ≤ b ∧ b ≤ byteOf '9' then some (b.toNat - 48) else none

/-- The value of a hexadecimal digit, in either case. -/
def hexDigit? (b : UInt8) : Option Nat :=
  if byteOf '0' ≤ b ∧ b ≤ byteOf '9' then some (b.toNat - 48)
  else if byteOf 'a' ≤ b ∧ b ≤ byteOf 'f' then some (b.toNat - 87)
  else if byteOf 'A' ≤ b ∧ b ≤ byteOf 'F' then some (b.toNat - 55)
  else none

/-! ## Strings -/

/-- The byte of an escape with one letter. -/
def escape? (b : UInt8) : Option UInt8 :=
  if b == byteOf '"' ∨ b == byteOf '\\' ∨ b == byteOf '/' then some b
  else if b == byteOf 'b' then some 8
  else if b == byteOf 'f' then some 12
  else if b == byteOf 'n' then some 10
  else if b == byteOf 'r' then some 13
  else if b == byteOf 't' then some 9
  else none

/-- The unit of four hexadecimal digits. -/
def unit? (a b c d : UInt8) : Option Nat := do
  return (((← hexDigit? a) * 16 + (← hexDigit? b)) * 16 + (← hexDigit? c)) * 16 + (← hexDigit? d)

/-- A string after its opening quote, and the bytes after its closing quote. -/
def spelling? : List UInt8 → Option (Spelling × List UInt8)
  | [] => none
  | b :: rest =>
    if b = byteOf '"' then some ([], rest)
    else if b < 0x20 then none
    else if b = byteOf '\\' then
      match rest with
      | [] => none
      | e :: rest =>
        if e = byteOf 'u' then
          match rest with
          | h1 :: h2 :: h3 :: h4 :: rest =>
            match unit? h1 h2 h3 h4 with
            | none => none
            | some u => (spelling? rest).map fun r => (.unit u :: r.1, r.2)
          | _ => none
        else
          match escape? e with
          | none => none
          | some b => (spelling? rest).map fun r => (.byte b :: r.1, r.2)
    else (spelling? rest).map fun r => (.byte b :: r.1, r.2)

/-- The UTF-8 bytes of a string.  Units above the first 16-bit plane come in
    pairs; half a pair spells no character. -/
def Spelling.bytes? : Spelling → Option (List UInt8)
  | [] => some []
  | .byte b :: rest => (bytes? rest).map (b :: ·)
  | .unit u :: rest =>
    if 0xD800 ≤ u ∧ u < 0xDC00 then
      match rest with
      | .unit v :: rest =>
        if 0xDC00 ≤ v ∧ v < 0xE000 then
          (bytes? rest).map
            (String.utf8EncodeChar (Char.ofNat (0x10000 + (u - 0xD800) * 0x400 + (v - 0xDC00)))
              ++ ·)
        else none
      | _ => none
    else if 0xDC00 ≤ u ∧ u < 0xE000 then none
    else (bytes? rest).map (String.utf8EncodeChar (Char.ofNat u) ++ ·)

def Spelling.text? (s : Spelling) : Option String :=
  s.bytes?.bind fun bytes => String.fromUTF8? ⟨bytes.toArray⟩

/-! ## Numbers -/

/-- The digits at the start, and the bytes after them. -/
def digits : List UInt8 → List Nat × List UInt8
  | [] => ([], [])
  | b :: rest =>
    match digit? b with
    | none => ([], b :: rest)
    | some d => let r := digits rest; (d :: r.1, r.2)

/-- The digits after a point, if there is one: at least one. -/
def fraction? : List UInt8 → Option (List Nat × List UInt8)
  | b :: rest =>
    if b = byteOf '.' then
      let r := digits rest
      if r.1.isEmpty then none else some r
    else some ([], b :: rest)
  | [] => some ([], [])

/-- The sign and the digits after a mark, if there is one: at least one digit. -/
def exponent? : List UInt8 → Option (Option (Bool × List Nat) × List UInt8)
  | b :: rest =>
    if b = byteOf 'e' ∨ b = byteOf 'E' then
      let (negative, rest) : Bool × List UInt8 :=
        match rest with
        | s :: rest' =>
          if s = byteOf '+' then (false, rest')
          else if s = byteOf '-' then (true, rest')
          else (false, rest)
        | [] => (false, [])
      let r := digits rest
      if r.1.isEmpty then none else some (some (negative, r.1), r.2)
    else some (none, b :: rest)
  | [] => some (none, [])

/-- The digits before the point: zero alone, or digits without a leading zero. -/
def whole? (bytes : List UInt8) : Option (List Nat × List UInt8) :=
  match digits bytes with
  | ([], _) => none
  | (0 :: _, _) => some ([0], bytes.drop 1)
  | r => some r

def number? (bytes : List UInt8) : Option (NumberText × List UInt8) := do
  let (negative, bytes) : Bool × List UInt8 :=
    match bytes with
    | b :: rest => if b = byteOf '-' then (true, rest) else (false, bytes)
    | [] => (false, [])
  let (whole, bytes) ← whole? bytes
  let (fraction, bytes) ← fraction? bytes
  let (exponent, bytes) ← exponent? bytes
  return (⟨negative, whole, fraction, exponent⟩, bytes)

/-! ## Tokens -/

/-- The token of one byte. -/
def mark? (b : UInt8) : Option Token :=
  if b = byteOf '[' then some .openArray
  else if b = byteOf ']' then some .closeArray
  else if b = byteOf '\x7b' then some .openObject
  else if b = byteOf '\x7d' then some .closeObject
  else if b = byteOf ',' then some .comma
  else if b = byteOf ':' then some .colon
  else none

/-- The names of values, with their bytes. -/
def names : List (List UInt8 × Token) :=
  [("null".toList.map byteOf, .null), ("true".toList.map byteOf, .bool true),
    ("false".toList.map byteOf, .bool false)]

/-- The token at the start, which is not a blank, and the bytes after it. -/
def token? : List UInt8 → Option (Token × List UInt8)
  | [] => none
  | b :: rest =>
    match mark? b with
    | some t => some (t, rest)
    | none =>
      if b = byteOf '"' then (spelling? rest).map fun r => (.text r.1, r.2)
      else
        match names.find? fun n => n.1.isPrefixOf (b :: rest) with
        | some n => some (n.2, (b :: rest).drop n.1.length)
        | none => (number? (b :: rest)).map fun r => (.number r.1, r.2)

/-- The tokens of a text of at most `n` bytes. -/
def scan : Nat → List UInt8 → Option (List Token)
  | _, [] => some []
  | 0, _ :: _ => none
  | n + 1, b :: rest =>
    if isBlank b then scan n rest
    else
      match token? (b :: rest) with
      | none => none
      | some (t, rest) => (scan n rest).map (t :: ·)

def tokens? (bytes : List UInt8) : Option (List Token) :=
  scan bytes.length bytes

end ScheduleSearch.Json

/-
  Values written as JSON text, without blanks.

  Numbers have the fewest digits that read back, positionally from `1e-5` up to
  `1e16`; a float that is no number is written as null.
-/
import ScheduleSearch.Decimal.Layout

namespace ScheduleSearch

def Layout.json : Layout where
  tie := .toEven
  low := some (-5)
  high := some 16
  pointZero := true
  exponentPlus := true

namespace Json

/-- One character of a string: quotes, backslashes and controls are escaped. -/
def escapeChar (c : Char) : List Char :=
  if c = '"' then ['\\', '"']
  else if c = '\\' then ['\\', '\\']
  else if c = Char.ofNat 8 then ['\\', 'b']
  else if c = Char.ofNat 12 then ['\\', 'f']
  else if c = '\n' then ['\\', 'n']
  else if c = '\r' then ['\\', 'r']
  else if c = '\t' then ['\\', 't']
  else if c.toNat < 0x20 then
    ['\\', 'u', '0', '0', Nat.digitChar (c.toNat / 16), Nat.digitChar (c.toNat % 16)]
  else [c]

def writeText (s : String) : String :=
  "\"" ++ String.ofList (s.toList.flatMap escapeChar) ++ "\""

def writeFloat (x : Float) : String :=
  if x.isFinite then Layout.json.render x else "null"

def writeArray (items : List String) : String :=
  "[" ++ ",".intercalate items ++ "]"

end Json

end ScheduleSearch

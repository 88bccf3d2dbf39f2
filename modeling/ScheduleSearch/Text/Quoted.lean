/-
  Text between double quotes, as it appears inside log fields.

  A quote and a backslash have a backslash before them, the common controls
  have letters, and any other character that is not printable is written by
  its code point.  `quoteList` writes the items of a list between brackets.
-/
import ScheduleSearch.Text.Printable

namespace ScheduleSearch.Text

def quoteChar (c : Char) : String :=
  if c = '"' then "\\\""
  else if c = '\\' then "\\\\"
  else if c = '\n' then "\\n"
  else if c = '\r' then "\\r"
  else if c = '\t' then "\\t"
  else if c = Char.ofNat 0 then "\\0"
  else if isPrintable c then c.toString
  else "\\u\x7b" ++ String.ofList (Nat.toDigits 16 c.toNat) ++ "\x7d"

def quote (s : String) : String :=
  "\"" ++ String.join (s.toList.map quoteChar) ++ "\""

def quoteList (items : List String) : String :=
  "[" ++ ", ".intercalate (items.map quote) ++ "]"

end ScheduleSearch.Text

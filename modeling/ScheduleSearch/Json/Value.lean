/-
  JSON values.

  `Value.ofTokens?` builds the value that a list of tokens spells, and
  `Value.read?` the value of a text.  Strings and numbers are left as they are
  spelled; `Value.text?` and `Value.float?` decode them.
-/
import ScheduleSearch.Json.Token

namespace ScheduleSearch.Json

inductive Value where
  | null
  | bool (b : Bool)
  | number (n : NumberText)
  | text (s : Spelling)
  | array (items : List Value)
  | object (members : List (Spelling × Value))

namespace Value

mutual

/-- The value at the start, and the tokens after it; at most `n` deep. -/
def value? : Nat → List Token → Option (Value × List Token)
  | 0, _ => none
  | n + 1, ts =>
    match ts with
    | .null :: rest => some (.null, rest)
    | .bool b :: rest => some (.bool b, rest)
    | .number x :: rest => some (.number x, rest)
    | .text s :: rest => some (.text s, rest)
    | .openArray :: .closeArray :: rest => some (.array [], rest)
    | .openArray :: rest => (items? n rest).map fun r => (.array r.1, r.2)
    | .openObject :: .closeObject :: rest => some (.object [], rest)
    | .openObject :: rest => (members? n rest).map fun r => (.object r.1, r.2)
    | _ => none

/-- The items up to the end of an array: at least one. -/
def items? : Nat → List Token → Option (List Value × List Token)
  | 0, _ => none
  | n + 1, ts =>
    match value? n ts with
    | some (v, .comma :: rest) => (items? n rest).map fun r => (v :: r.1, r.2)
    | some (v, .closeArray :: rest) => some ([v], rest)
    | _ => none

/-- The members up to the end of an object: at least one. -/
def members? : Nat → List Token → Option (List (Spelling × Value) × List Token)
  | 0, _ => none
  | n + 1, ts =>
    match ts with
    | .text key :: .colon :: rest =>
      match value? n rest with
      | some (v, .comma :: rest) => (members? n rest).map fun r => ((key, v) :: r.1, r.2)
      | some (v, .closeObject :: rest) => some ([(key, v)], rest)
      | _ => none
    | _ => none

end

def ofTokens? (ts : List Token) : Option Value :=
  match value? (2 * ts.length + 2) ts with
  | some (v, []) => some v
  | _ => none

def read? (bytes : List UInt8) : Option Value :=
  (tokens? bytes).bind ofTokens?

def text? : Value → Option String
  | .text s => s.text?
  | _ => none

end Value

end ScheduleSearch.Json

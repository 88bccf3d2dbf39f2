/-
  Floats read from text.

  A literal is an optional sign and digits with at most one point, at least
  one digit, and an optional exponent, or a name of an infinity or of NaN.
  `Literal.toFloat` rounds its exact value to the nearest float.
-/
import ScheduleSearch.Decimal.Integer

namespace ScheduleSearch

/-- A literal read from text, before rounding. -/
inductive Literal where
  | nan
  | infinity (negative : Bool)
  /-- `±coefficient · 10 ^ exponent` -/
  | decimal (negative : Bool) (coefficient : Nat) (exponent : Int)
deriving DecidableEq, Repr

namespace Literal

/-- The number spelled by decimal digits, read from the left. -/
def value (digits : List Char) : Nat :=
  digits.foldl (fun n c => n * 10 + (c.toNat - 48)) 0

/-- An ASCII digit. -/
def isDigit (c : Char) : Bool := (digitValue? c).isSome

/-- The exponent part: nothing, or a mark, an optional sign and digits. -/
def exponent? : List Char → Option Int
  | [] => some 0
  | c :: cs =>
    if c = 'e' ∨ c = 'E' then
      let (negative, digits) : Bool × List Char :=
        match cs with
        | '+' :: cs => (false, cs)
        | '-' :: cs => (true, cs)
        | cs => (false, cs)
      if digits.isEmpty ∨ !digits.all isDigit then none
      else some (if negative then -(value digits : Int) else value digits)
    else none

def unsigned? (negative : Bool) (cs : List Char) : Option Literal :=
  match String.ofList (cs.map Char.toLower) with
  | "inf" | "infinity" => some (.infinity negative)
  | "nan" => some .nan
  | _ =>
    let whole := cs.takeWhile isDigit
    let rest := cs.dropWhile isDigit
    let (fraction, rest) : List Char × List Char :=
      match rest with
      | '.' :: rest => (rest.takeWhile isDigit, rest.dropWhile isDigit)
      | rest => ([], rest)
    if whole.isEmpty ∧ fraction.isEmpty then none
    else (exponent? rest).map fun e =>
      .decimal negative (value (whole ++ fraction)) (e - fraction.length)

def read? (s : String) : Option Literal :=
  match s.toList with
  | '+' :: cs => unsigned? false cs
  | '-' :: cs => unsigned? true cs
  | cs => unsigned? false cs

/-- `coefficient · 10 ^ exponent` rounded to nearest.  Outside `10 ^ ±400` the
    answer is infinite or zero whatever the digits are. -/
def round (coefficient : Nat) (exponent : Int) : Float :=
  let magnitude := (Nat.toDigits 10 coefficient).length + exponent
  if coefficient = 0 ∨ magnitude < -400 then 0
  else if 400 < magnitude then 1 / 0
  else Float.ofScientific coefficient (exponent < 0) exponent.natAbs

def toFloat : Literal → Float
  | .nan => 0 / 0
  | .infinity negative => if negative then -(1 / 0) else 1 / 0
  | .decimal negative coefficient exponent =>
    let x := round coefficient exponent
    if negative then -x else x

end Literal

end ScheduleSearch

/-
  How a float is written: the shortest digits laid out by a `Layout`, or a set
  number of places.

  * `Layout` holds the decisions of a format with the fewest digits, and
    `Layout.render` writes a float by them;
  * `places p x` is `x` rounded at `p` places after the point, a half to the
    even neighbour of the exact binary value.
-/
import ScheduleSearch.Decimal.Basic

namespace ScheduleSearch

/-- The decisions of a format that writes the fewest digits.  `low ≤ e < high`
    are the exponents of the leading digit that are written positionally. -/
structure Layout where
  tie : Tie
  low : Option Int
  high : Option Int
  /-- an integral value keeps one zero after the point -/
  pointZero : Bool
  /-- a positive exponent has a sign -/
  exponentPlus : Bool

/-- The text of a float that is no number: no sign for a NaN. -/
def nonFinite (x : Float) : String :=
  if x.isNaN then "NaN" else if x < 0 then "-inf" else "inf"

def signBit (x : Float) : Bool :=
  0x8000000000000000 ≤ x.toBits.toNat

namespace Layout

def zeros (n : Nat) : String :=
  String.ofList (List.replicate n '0')

/-- Digits with the point after, inside or before them. -/
def positional (l : Layout) (d : Decimal) : String :=
  let digits := Nat.repr d.coefficient
  if 0 ≤ d.exponent then digits ++ zeros d.exponent.toNat ++ (if l.pointZero then ".0" else "")
  else
    let places := (-d.exponent).toNat
    let cs := digits.toList
    if places < cs.length then
      String.ofList (cs.take (cs.length - places)) ++ "." ++
        String.ofList (cs.drop (cs.length - places))
    else "0." ++ zeros (places - cs.length) ++ digits

/-- One digit, a point if more follow, and the exponent. -/
def scientific (l : Layout) (d : Decimal) : String :=
  let e := d.leading
  let mark := if e < 0 then "e-" else if l.exponentPlus then "e+" else "e"
  match (Nat.repr d.coefficient).toList with
  | [] => ""
  | c :: cs =>
    (if cs.isEmpty then c.toString else String.ofList (c :: '.' :: cs)) ++ mark ++
      Nat.repr e.natAbs

/-- A magnitude as text: zero is written positionally. -/
def magnitude (l : Layout) (d : Decimal) : String :=
  if d.coefficient = 0 ∨ (l.low.all (· ≤ d.leading) ∧ l.high.all (d.leading < ·)) then
    l.positional d
  else l.scientific d

/-- `x` as text; the sign of zero is kept. -/
def render (l : Layout) (x : Float) : String :=
  if x.isFinite then
    (if signBit x then "-" else "") ++ l.magnitude ((Binary.ofFloat x).shortest l.tie)
  else nonFinite x

end Layout

/-- A number inside a message: never with an exponent, an integral value
    without a point. -/
def Layout.message : Layout where
  tie := .awayFromZero
  low := none
  high := none
  pointZero := false
  exponentPlus := false

/-- The integer nearest to `x · 10 ^ p`, a half to even. -/
def Binary.atPlaces (x : Binary) (p : Nat) : Nat :=
  x.roundedTimes .toEven (Nat.pow 10 p)

/-- `s` with blanks before it up to `width` characters. -/
def padLeft (width : Nat) (s : String) : String :=
  String.ofList (List.replicate (width - s.length) ' ') ++ s

/-- `x` with `p` places after the point. -/
def places (p : Nat) (x : Float) : String :=
  if x.isFinite then
    let n := (Binary.ofFloat x).atPlaces p
    let fraction := Nat.repr (n % Nat.pow 10 p)
    (if signBit x then "-" else "") ++ Nat.repr (n / Nat.pow 10 p) ++ "." ++
      Layout.zeros (p - fraction.length) ++ fraction
  else nonFinite x

end ScheduleSearch

/-
  The float of a JSON number.

  The digits are taken into a 64-bit significand as long as they fit; further
  digits before the point only raise the exponent, and further digits after it
  are dropped.  The significand is then multiplied or divided by a power of
  ten, so a long number need not give the nearest float.  A number too large
  for a float is refused, and one too small is zero.
-/
import ScheduleSearch.Json.Value

namespace ScheduleSearch.Json

namespace NumberText

/-- `10 ^ n` as a float, for `n ≤ 308`. -/
def powerOfTen (n : Nat) : Float :=
  Float.ofScientific 1 false n

/-- Takes digits into a significand while it stays below `2 ^ 64`; the
    significand, and the digits that are left. -/
def significand : Nat → List Nat → Nat × List Nat
  | m, [] => (m, [])
  | m, d :: ds => if m * 10 + d < 0x10000000000000000 then significand (m * 10 + d) ds else (m, d :: ds)

/-- `x · 10 ^ e`, by one multiplication or division by a power of ten after at
    most `n` divisions by `10 ^ 308`. -/
def scaled? : Nat → Float → Int → Option Float
  | 0, _, _ => some 0
  | n + 1, x, e =>
    if e.natAbs ≤ 308 then
      if 0 ≤ e then
        let y := x * powerOfTen e.toNat
        if y.isInf then none else some y
      else some (x / powerOfTen e.natAbs)
    else if x == 0 then some x
    else if 0 ≤ e then none
    else scaled? n (x / powerOfTen 308) (e + 308)

/-- The number of an exponent's digits; none if it needs more than 31 bits. -/
def exponentValue? (ds : List Nat) : Option Nat :=
  let e := ds.foldl (fun n d => n * 10 + d) 0
  if e < 0x80000000 then some e else none

def magnitude? (n : NumberText) : Option Float :=
  let whole := significand 0 n.whole
  let all := significand whole.1 n.fraction
  let shift : Int := whole.2.length - ((n.fraction.length : Int) - all.2.length)
  let x := all.1.toUInt64.toFloat
  match n.exponent with
  | none => scaled? 4 x shift
  | some (negative, ds) =>
    match exponentValue? ds with
    | some e => scaled? 4 x (if negative then shift - e else shift + e)
    | none => if all.1 ≠ 0 ∧ !negative then none else some 0

def float? (n : NumberText) : Option Float :=
  n.magnitude?.map fun x => if n.negative then -x else x

end NumberText

def Value.float? : Value → Option Float
  | .number n => n.float?
  | _ => none

end ScheduleSearch.Json

/-
  Decimals and finite binary floating-point values, compared exactly.

  A `Decimal` is `coefficient · 10 ^ exponent`; a `Binary` is the magnitude
  `mantissa · 2 ^ exponent` of a finite 64-bit float.  `Binary.readsBack x d`
  says that `d` lies among the reals that round to `x`, and `Binary.shortest`
  is the decimal with the fewest digits that does, the nearest of those.
-/

namespace ScheduleSearch

/-- The magnitude `coefficient · 10 ^ exponent`. -/
structure Decimal where
  coefficient : Nat
  exponent : Int
deriving DecidableEq, Repr

/-- The magnitude `mantissa · 2 ^ exponent` of a finite float. -/
structure Binary where
  mantissa : Nat
  exponent : Int
  /-- the gap to the float below is half the gap to the float above -/
  narrowBelow : Bool

/-- Which of two equally near neighbours is taken. -/
inductive Tie where
  | toEven
  | awayFromZero
deriving DecidableEq, Repr

namespace Decimal

/-- The number of decimal digits of `n`; one for zero. -/
def digitCount (n : Nat) : Nat :=
  (Nat.toDigits 10 n).length

/-- Moves trailing zeros of the coefficient into the exponent, at most `n`. -/
def strip : Nat → Decimal → Decimal
  | 0, d => d
  | n + 1, d =>
    if d.coefficient ≠ 0 ∧ d.coefficient % 10 = 0 then
      strip n ⟨d.coefficient / 10, d.exponent + 1⟩
    else d

/-- The exponent of the leading digit: `d.ddd · 10 ^ leading`. -/
def leading (d : Decimal) : Int :=
  digitCount d.coefficient + d.exponent - 1

end Decimal

/-- `num / den` rounded to the nearest integer, a half by `tie`. -/
def roundQuotient (tie : Tie) (num den : Nat) : Nat :=
  let q := num / den
  let r : Nat := 2 * (num % den)
  if r < den then q
  else if den < r then q + 1
  else match tie with
    | .toEven => q + q % 2
    | .awayFromZero => q + 1

namespace Binary

/-- The magnitude with the bit pattern `b`, which is neither a NaN nor infinite. -/
def ofBits (b : UInt64) : Binary :=
  let field : Nat := b.toNat / 0x10000000000000 % 0x800
  let fraction : Nat := b.toNat % 0x10000000000000
  if field = 0 then ⟨fraction, -1074, false⟩
  else ⟨0x10000000000000 + fraction, (field : Int) - 1075, fraction == 0 && 1 < field⟩

def ofFloat (x : Float) : Binary :=
  ofBits x.toBits

/-- Compares `a · 10 ^ i` with `n · 2 ^ j`. -/
def compareScaled (a : Nat) (i : Int) (n : Nat) (j : Int) : Ordering :=
  compare (a * Nat.pow 10 i.toNat * Nat.pow 2 (-j).toNat)
    (n * Nat.pow 2 j.toNat * Nat.pow 10 (-i).toNat)

/-- `d` lies among the reals that round to `x`: between the midpoints to the
    neighbours of `x`, ends included for an even mantissa. -/
def readsBack (x : Binary) (d : Decimal) : Bool :=
  let below := compareScaled d.coefficient d.exponent
    (if x.narrowBelow then 4 * x.mantissa - 1 else 4 * x.mantissa - 2) (x.exponent - 2)
  let above := compareScaled d.coefficient d.exponent (4 * x.mantissa + 2) (x.exponent - 2)
  let ends := x.mantissa % 2 == 0
  (below == .gt || (ends && below == .eq)) && (above == .lt || (ends && above == .eq))

def floorScaled (x : Binary) (g : Int) : Nat :=
  x.mantissa * Nat.pow 2 x.exponent.toNat * Nat.pow 10 (-g).toNat /
    (Nat.pow 2 (-x.exponent).toNat * Nat.pow 10 g.toNat)

/-- The integer nearest to `x · n`, a half by `tie`. -/
def roundedTimes (tie : Tie) (x : Binary) (n : Nat) : Nat :=
  roundQuotient tie (x.mantissa * Nat.pow 2 x.exponent.toNat * n) (Nat.pow 2 (-x.exponent).toNat)

/-- The least `k` with `x < 10 ^ k`, for `x` at least `10 ^ -342`. -/
def scale (x : Binary) : Int :=
  Decimal.digitCount (x.floorScaled (-342)) - 342

/-- Of the two neighbours of `x` on the grid `10 ^ g`, the one that reads back;
    the nearer if both do. -/
def onGrid? (tie : Tie) (x : Binary) (g : Int) : Option Decimal :=
  let lo := x.floorScaled g
  match x.readsBack ⟨lo, g⟩, x.readsBack ⟨lo + 1, g⟩ with
  | true, false => some ⟨lo, g⟩
  | false, true => some ⟨lo + 1, g⟩
  | false, false => none
  | true, true =>
    match compareScaled (2 * lo + 1) g x.mantissa (x.exponent + 1), tie with
    | .gt, _ => some ⟨lo, g⟩
    | .lt, _ => some ⟨lo + 1, g⟩
    | .eq, .awayFromZero => some ⟨lo + 1, g⟩
    | .eq, .toEven => some ⟨lo + lo % 2, g⟩

def exact (x : Binary) : Decimal :=
  if 0 ≤ x.exponent then ⟨x.mantissa * Nat.pow 2 x.exponent.toNat, 0⟩
  else ⟨x.mantissa * Nat.pow 5 (-x.exponent).toNat, x.exponent⟩

/-- The decimal with the fewest digits that reads back as `x`, of those the
    nearest to `x`, without trailing zeros. -/
def shortest (tie : Tie) (x : Binary) : Decimal :=
  if x.mantissa = 0 then ⟨0, 0⟩
  else
    let found := (List.range 17).findSome? fun n => x.onGrid? tie (x.scale - (n + 1 : Nat))
    (found.getD x.exact).strip 1100

end Binary

end ScheduleSearch

/-
  Lengths of time, in whole nanoseconds.

  A duration holds at most `2 ^ 64 - 1` seconds and a fraction.
  `Duration.ofSeconds` rounds a number of seconds to the nearest nanosecond, a
  half to even; `Duration.divide` rounds down.
-/
import ScheduleSearch.Decimal.Basic

namespace ScheduleSearch

structure Duration where
  nanoseconds : Nat
deriving DecidableEq, Repr

inductive DurationFault where
  | negative
  | tooLong
deriving DecidableEq, Repr

def DurationFault.message : DurationFault → String
  | negative => "cannot convert float seconds to Duration: value is negative"
  | tooLong => "cannot convert float seconds to Duration: value is either too big or NaN"

namespace Duration

def perSecond : Nat := 1000000000

def zero : Duration := ⟨0⟩

def ofParts (secs nanos : Nat) : Duration := ⟨secs * perSecond + nanos⟩

/-- The longest duration. -/
def longest : Duration := ofParts 0xFFFFFFFFFFFFFFFF 999999999

def wholeSeconds (d : Duration) : Nat := d.nanoseconds / perSecond

/-- The nanoseconds beside its whole seconds. -/
def fraction (d : Duration) : Nat := d.nanoseconds % perSecond

/-- One of `n` equal parts, rounded down. -/
def divide (d : Duration) (n : Nat) : Duration := ⟨d.nanoseconds / n⟩

/-- What is left of `d` after `e`; nothing if `e` is longer. -/
def minus (d e : Duration) : Duration := ⟨d.nanoseconds - e.nanoseconds⟩

/-- A duration in seconds: the rounded whole seconds plus the fraction. -/
def seconds (d : Duration) : Float :=
  d.wholeSeconds.toUInt64.toFloat + d.fraction.toUInt64.toFloat / 1000000000

/-- `x` seconds, to the nearest nanosecond. -/
def ofSeconds (x : Float) : Except DurationFault Duration :=
  if x < 0 then .error .negative
  else if x < 18446744073709551616 then
    .ok ⟨(Binary.ofFloat x).roundedTimes .toEven perSecond⟩
  else .error .tooLong

end Duration

end ScheduleSearch

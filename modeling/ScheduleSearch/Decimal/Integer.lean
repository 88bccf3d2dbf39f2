/-
  Integers read from text: an optional sign and ASCII digits, within bounds.

  The digits are read from the left, and the first fault met is the one
  reported: `IntegerRange.read r s` is the integer spelled by `s` when every
  partial value lies within `r`.
-/

namespace ScheduleSearch

inductive IntegerFault where
  | empty
  | invalidDigit
  | tooLarge
  | tooSmall
deriving DecidableEq, Repr

namespace IntegerFault

def message : IntegerFault → String
  | empty => "cannot parse integer from empty string"
  | invalidDigit => "invalid digit found in string"
  | tooLarge => "number too large to fit in target type"
  | tooSmall => "number too small to fit in target type"

end IntegerFault

/-- The integers `low ≤ n ≤ high`.  A range without negative numbers does not
    know the sign `-`. -/
structure IntegerRange where
  low : Int
  high : Int

namespace IntegerRange

/-- Counts and depths: 64 bits with a sign. -/
def signed64 : IntegerRange := ⟨-0x8000000000000000, 0x7FFFFFFFFFFFFFFF⟩

/-- Widths and seeds: 64 bits without a sign. -/
def unsigned64 : IntegerRange := ⟨0, 0xFFFFFFFFFFFFFFFF⟩

/-- Walk counts and loop sizes: 32 bits without a sign. -/
def unsigned32 : IntegerRange := ⟨0, 0xFFFFFFFF⟩

end IntegerRange

def digitValue? (c : Char) : Option Nat :=
  if '0' ≤ c ∧ c ≤ '9' then some (c.toNat - 48) else none

namespace IntegerRange

/-- Reads the digits `cs` after the value `n`, towards `low` if `negative`. -/
def readDigits (r : IntegerRange) (negative : Bool) (n : Int) :
    List Char → Except IntegerFault Int
  | [] => .ok n
  | c :: cs =>
    match digitValue? c with
    | none => .error .invalidDigit
    | some d =>
      if negative then
        if n * 10 - d < r.low then .error .tooSmall else r.readDigits negative (n * 10 - d) cs
      else if r.high < n * 10 + d then .error .tooLarge
      else r.readDigits negative (n * 10 + d) cs

/-- The integer of the range `r` spelled by `cs`. -/
def readChars (r : IntegerRange) (cs : List Char) : Except IntegerFault Int :=
  match cs with
  | [] => .error .empty
  | ['+'] | ['-'] => .error .invalidDigit
  | '+' :: cs => r.readDigits false 0 cs
  | '-' :: cs =>
    if r.low < 0 then r.readDigits true 0 cs else .error .invalidDigit
  | cs => r.readDigits false 0 cs

def read (r : IntegerRange) (s : String) : Except IntegerFault Int :=
  r.readChars s.toList

end IntegerRange

end ScheduleSearch

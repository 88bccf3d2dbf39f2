/-
  The greater of two floats, for maxima that are kept while values come in.

  * A NaN gives way to any other float, and of two floats that are equal, as
    the two zeros are, `greater` takes the later one;
  * `greater_mem`: nothing but one of the two comes out.
-/

namespace ScheduleSearch

/-- The greater of `a` and `b`: `b`, unless it is a NaN or below `a`. -/
def greater (a b : Float) : Float :=
  if b.isNaN ∨ b < a then a else b

theorem greater_mem (a b : Float) : greater a b ∈ [a, b] := by
  unfold greater
  split <;> simp

end ScheduleSearch

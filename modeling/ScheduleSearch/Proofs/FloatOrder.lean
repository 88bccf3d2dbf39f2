/-
  The order of the floats that are no NaN, as an order of keys.

  A key is the class of a float, its exponent and its significand, the last two
  negated below zero; keys are compared component by component.

  * `lt_iff`, `le_iff`, `beq_iff`: comparing two floats is comparing their keys,
    and the two zeros share one;
  * so on these floats `≤` is a total preorder (`not_lt_iff`, `trans`), and
    floats at most each other are equal as numbers (`beq_of_le`);
  * `eq_or_zeros_of_beq`: no other floats than the two zeros are equal as numbers.
-/
import Mathlib

namespace ScheduleSearch.FloatOrder

open Float.Model (UnpackedFloat)

/-- A class, an exponent and a significand. -/
abbrev Key := Int ×ₗ Int ×ₗ Int

/-- The key of an unpacked float; that of a NaN has no meaning. -/
def keyOf : UnpackedFloat → Key
  | .infinity .negative => toLex (-2, toLex (0, 0))
  | .finite .negative m e _ => toLex (-1, toLex (-e, -m))
  | .zero _ | .notANumber => toLex (0, toLex (0, 0))
  | .finite .positive m e _ => toLex (1, toLex (e, m))
  | .infinity .positive => toLex (2, toLex (0, 0))

def key (x : Float) : Key := keyOf x.toModel.unpack

/-- Finite floats of one sign are compared by exponent, then by significand. -/
theorem then_lt_iff (e₁ e₂ : Int) (m₁ m₂ : Nat) :
    (compare e₁ e₂).then (compare m₁ m₂) = .lt ↔ e₁ < e₂ ∨ e₁ = e₂ ∧ m₁ < m₂ := by
  rw [Ordering.then_eq_lt, compare_lt_iff_lt, compare_lt_iff_lt, compare_eq_iff_eq]

theorem then_gt_iff (e₁ e₂ : Int) (m₁ m₂ : Nat) :
    (compare e₁ e₂).then (compare m₁ m₂) = .gt ↔ e₂ < e₁ ∨ e₁ = e₂ ∧ m₂ < m₁ := by
  rw [Ordering.then_eq_gt, compare_gt_iff_gt, compare_gt_iff_gt, compare_eq_iff_eq]

theorem compare_isSome {a b : UnpackedFloat} (ha : a.isNaN = false) (hb : b.isNaN = false) :
    ∃ o, a.compare b = some o := by
  rcases a with (_ | _) | _ | _ | ⟨_ | _, _, _, _⟩ <;>
    rcases b with (_ | _) | _ | _ | ⟨_ | _, _, _, _⟩ <;>
    simp_all [UnpackedFloat.isNaN, UnpackedFloat.compare]

theorem compare_lt_iff {a b : UnpackedFloat} (ha : a.isNaN = false) (hb : b.isNaN = false) :
    a.compare b = some .lt ↔ keyOf a < keyOf b := by
  rcases a with (_ | _) | _ | _ | ⟨_ | _, m₁, e₁, _⟩ <;>
    rcases b with (_ | _) | _ | _ | ⟨_ | _, m₂, e₂, _⟩ <;>
    simp_all +decide [UnpackedFloat.isNaN, UnpackedFloat.compare, keyOf, Prod.Lex.lt_iff,
      then_lt_iff, then_gt_iff]

theorem compare_eq_iff {a b : UnpackedFloat} (ha : a.isNaN = false) (hb : b.isNaN = false) :
    a.compare b = some .eq ↔ keyOf a = keyOf b := by
  rcases a with (_ | _) | _ | _ | ⟨_ | _, m₁, e₁, _⟩ <;>
    rcases b with (_ | _) | _ | _ | ⟨_ | _, m₂, e₂, _⟩ <;>
    simp_all +decide [UnpackedFloat.isNaN, UnpackedFloat.compare, keyOf]

/-- Unpacked floats with one key are the same, or two zeros. -/
theorem eq_or_zeros_of_keyOf {a b : UnpackedFloat} (ha : a.isNaN = false) (hb : b.isNaN = false)
    (h : keyOf a = keyOf b) : a = b ∨ ∃ s t, a = .zero s ∧ b = .zero t := by
  rcases a with (_ | _) | _ | _ | ⟨_ | _, m₁, e₁, _⟩ <;>
    rcases b with (_ | _) | _ | _ | ⟨_ | _, m₂, e₂, _⟩ <;>
    simp_all [UnpackedFloat.isNaN, keyOf]

/-! ## Floats -/

variable {x y z : Float}

theorem not_isNaN (hx : x.isFinite) : x.isNaN = false := by
  unfold Float.isFinite Float.Model.isFinite at hx
  unfold Float.isNaN Float.Model.isNaN
  cases h : x.toModel.unpack <;> simp_all [UnpackedFloat.isFinite, UnpackedFloat.isNaN]

theorem lt_iff (hx : x.isNaN = false) (hy : y.isNaN = false) : x < y ↔ key x < key y := by
  rw [key, key, ← compare_lt_iff hx hy]
  show decide ((x.toModel.unpack.compare y.toModel.unpack == some .lt) = true) = true ↔ _
  rw [decide_eq_true_eq, beq_iff_eq]

theorem beq_iff (hx : x.isNaN = false) (hy : y.isNaN = false) : x == y ↔ key x = key y := by
  rw [key, key, ← compare_eq_iff hx hy]
  show (x.toModel.unpack.compare y.toModel.unpack == some .eq) = true ↔ _
  rw [beq_iff_eq]

theorem le_iff (hx : x.isNaN = false) (hy : y.isNaN = false) : x ≤ y ↔ key x ≤ key y := by
  rw [key, key, le_iff_lt_or_eq, ← compare_lt_iff hx hy, ← compare_eq_iff hx hy]
  show decide ((x.toModel.unpack.compare y.toModel.unpack).any (·.isLE) = true) = true ↔ _
  obtain ⟨o, ho⟩ := compare_isSome hx hy
  rw [ho]
  cases o <;> decide

theorem refl (hx : x.isNaN = false) : x ≤ x :=
  (le_iff hx hx).2 le_rfl

/-- A NaN cannot be compared. -/
theorem not_isNaN_of_le (h : x ≤ y) : x.isNaN = false ∧ y.isNaN = false := by
  have h : decide ((x.toModel.unpack.compare y.toModel.unpack).any (·.isLE) = true) = true := h
  unfold Float.isNaN Float.Model.isNaN
  revert h
  rcases x.toModel.unpack with (_ | _) | _ | _ | ⟨_ | _, _, _, _⟩ <;>
    rcases y.toModel.unpack with (_ | _) | _ | _ | ⟨_ | _, _, _, _⟩ <;>
    simp [UnpackedFloat.isNaN, UnpackedFloat.compare]

theorem trans (hxy : x ≤ y) (hyz : y ≤ z) : x ≤ z := by
  obtain ⟨hx, hy⟩ := not_isNaN_of_le hxy
  obtain ⟨-, hz⟩ := not_isNaN_of_le hyz
  exact (le_iff hx hz).2 (((le_iff hx hy).1 hxy).trans ((le_iff hy hz).1 hyz))

/-- Of two floats that are no NaN, one is at most the other. -/
theorem not_lt_iff (hx : x.isNaN = false) (hy : y.isNaN = false) : ¬ x < y ↔ y ≤ x := by
  rw [lt_iff hx hy, le_iff hy hx, not_lt]

theorem le_of_lt (hx : x.isNaN = false) (hy : y.isNaN = false) (h : x < y) : x ≤ y :=
  (le_iff hx hy).2 ((lt_iff hx hy).1 h).le

theorem lt_of_le_of_lt (hz : z.isNaN = false) (hxy : x ≤ y) (hyz : y < z) : x < z := by
  obtain ⟨hx, hy⟩ := not_isNaN_of_le hxy
  exact (lt_iff hx hz).2 (((le_iff hx hy).1 hxy).trans_lt ((lt_iff hy hz).1 hyz))

/-- Floats at most each other are equal as numbers: the same float, or the two
    zeros. -/
theorem beq_of_le (hx : x.isNaN = false) (hy : y.isNaN = false) (hxy : x ≤ y) (hyx : y ≤ x) :
    x == y :=
  (beq_iff hx hy).2 (le_antisymm ((le_iff hx hy).1 hxy) ((le_iff hy hx).1 hyx))

/-! ## Equal numbers -/

/-- A NaN is not equal to anything. -/
theorem not_isNaN_of_beq (h : x == y) : x.isNaN = false ∧ y.isNaN = false := by
  have h : (x.toModel.unpack.compare y.toModel.unpack == some .eq) = true := h
  unfold Float.isNaN Float.Model.isNaN
  revert h
  rcases x.toModel.unpack with (_ | _) | _ | _ | ⟨_ | _, _, _, _⟩ <;>
    rcases y.toModel.unpack with (_ | _) | _ | _ | ⟨_ | _, _, _, _⟩ <;>
    simp [UnpackedFloat.isNaN, UnpackedFloat.compare]

theorem unpack_injective (h : x.toModel.unpack = y.toModel.unpack) : x = y := by
  obtain ⟨⟨b, hb⟩⟩ := x
  obtain ⟨⟨c, hc⟩⟩ := y
  obtain rfl : b = c := UInt64.toBitVec_inj.1 ((UnpackedFloat.unpack_inj_of_valid hb hc).1 h)
  rfl

theorem zero_or_of_unpack {s : UnpackedFloat.Sign} (h : x.toModel.unpack = .zero s) :
    x = 0 ∨ x = -0 := by
  cases s with
  | positive => exact .inl (unpack_injective h)
  | negative => exact .inr (unpack_injective h)

/-- Floats that are equal as numbers are the same float, or two zeros. -/
theorem eq_or_zeros_of_beq (h : x == y) : x = y ∨ (x = 0 ∨ x = -0) ∧ (y = 0 ∨ y = -0) := by
  obtain ⟨hx, hy⟩ := not_isNaN_of_beq h
  rcases eq_or_zeros_of_keyOf hx hy ((beq_iff hx hy).1 h) with heq | ⟨s, t, hs, ht⟩
  · exact .inl (unpack_injective heq)
  · exact .inr ⟨zero_or_of_unpack hs, zero_or_of_unpack ht⟩

end ScheduleSearch.FloatOrder

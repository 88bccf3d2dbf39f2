/-
  Scores that are counts.

  A count of 32 bits is a float without any rounding, so such floats are ordered as the
  counts are (`toFloat_lt_iff`), and one more as a float is one more as a count
  (`toFloat_add_one`).

  Rankings go by the bits of the scores; **`orderKey_lt`**: of two finite floats, the
  lower number comes before the other in the order of the bits, too.
-/
import ScheduleSearch.Evaluator
import ScheduleSearch.Proofs.FloatOrder
import ScheduleSearch.Proofs.Rounding

namespace ScheduleSearch

open Float.Model (UnpackedFloat Format)
open FloatOrder (key keyOf)

/-! ## The order of the bits -/

section
variable {x y : Float} {b c : UInt64}

/-- Of two magnitudes, the one with the lower exponent, or with the lower mantissa, has the
    lower bits. -/
theorem bits_lt_of_lt (h : (Binary.ofBits b).exponent < (Binary.ofBits c).exponent ∨
    (Binary.ofBits b).exponent = (Binary.ofBits c).exponent ∧
      (Binary.ofBits b).mantissa < (Binary.ofBits c).mantissa) :
    b.toNat % 2 ^ 63 < c.toNat % 2 ^ 63 := by
  unfold Binary.ofBits at h
  dsimp only at h
  split at h <;> split at h <;> dsimp only at h <;> omega

theorem mantissa_ofBits_eq_zero : (Binary.ofBits b).mantissa = 0 ↔ b.toNat % 2 ^ 63 = 0 := by
  unfold Binary.ofBits
  dsimp only
  split <;> dsimp only <;> omega

theorem key_eq (hx : x.isFinite) : key x = keyOf (unpacked (signBit x) (Binary.ofFloat x)) := by
  conv_lhs => rw [← toFloat_ofFloat hx]
  rw [key, (double_ofFloat hx).unpack_toFloat]

/-- **The order of the bits** is that of the numbers. -/
theorem orderKey_lt (hx : x.isFinite) (hy : y.isFinite) (h : x < y) : orderKey x < orderKey y := by
  have hxlt := x.toBits.toNat_lt
  have hylt := y.toBits.toNat_lt
  have hlt := (FloatOrder.lt_iff (FloatOrder.not_isNaN hx) (FloatOrder.not_isNaN hy)).1 h
  rw [key_eq hx, key_eq hy] at hlt
  have hxy := bits_lt_of_lt (b := x.toBits) (c := y.toBits)
  have hyx := bits_lt_of_lt (b := y.toBits) (c := x.toBits)
  have hx0 := mantissa_ofBits_eq_zero (b := x.toBits)
  have hy0 := mantissa_ofBits_eq_zero (b := y.toBits)
  unfold unpacked signBit Binary.ofFloat at hlt
  unfold orderKey
  dsimp only
  -- the two zeros share a key, all other floats are compared within their sign
  by_cases hxs : 0x8000000000000000 ≤ x.toBits.toNat <;>
    by_cases hys : 0x8000000000000000 ≤ y.toBits.toNat <;>
    by_cases hxm : (Binary.ofBits x.toBits).mantissa = 0 <;>
    by_cases hym : (Binary.ofBits y.toBits).mantissa = 0 <;>
    simp [hxs, hys, hxm, hym, signOf, keyOf, Prod.Lex.lt_iff] at hlt <;> omega

end

/-! ## Counts -/

namespace Binary

variable {x y : Binary}

/-- Magnitudes of 53 bits are compared by exponent, then by mantissa. -/
theorem Double.value_lt_iff (hx : x.Double) (hy : y.Double) (hxm : 2 ^ 52 ≤ x.mantissa)
    (hym : 2 ^ 52 ≤ y.mantissa) : x.value < y.value ↔
      x.exponent < y.exponent ∨ x.exponent = y.exponent ∧ x.mantissa < y.mantissa := by
  have hbelow : ∀ {x y : Binary}, x.Double → 2 ^ 52 ≤ y.mantissa → x.exponent < y.exponent →
      x.value < y.value := fun {x y} hx hym he => by
    have hpow : (2 : ℚ) ^ (x.exponent + 1) ≤ 2 ^ y.exponent :=
      zpow_le_zpow_right₀ (by norm_num) he
    have hxlt : (x.mantissa : ℚ) < 2 ^ 53 := by exact_mod_cast hx.mantissa_lt
    have hyge : (2 : ℚ) ^ 52 ≤ y.mantissa := by exact_mod_cast hym
    calc x.value < 2 ^ 53 * 2 ^ x.exponent := by unfold value; gcongr
      _ = 2 ^ 52 * 2 ^ (x.exponent + 1) := by rw [zpow_add_one₀ (by norm_num)]; ring
      _ ≤ y.value := by unfold value; gcongr
  rcases lt_trichotomy x.exponent y.exponent with he | he | he
  · exact iff_of_true (hbelow hx hym he) (.inl he)
  · have hpos : (0 : ℚ) < 2 ^ y.exponent := by positivity
    unfold value
    rw [he, mul_lt_mul_iff_left₀ hpos, Nat.cast_lt]
    simp
  · refine iff_of_false (hbelow hy hxm he).not_gt ?_
    omega

theorem Double.key_toFloat (hx : x.Double) (hpos : 0 < x.mantissa) :
    key (x.toFloat false) = toLex (1, toLex (x.exponent, (x.mantissa : ℤ))) := by
  rw [key, hx.unpack_toFloat, unpacked_of_pos hpos]
  rfl

theorem Double.add_toFloat {z : Binary} (hx : x.Double) (hy : y.Double) (hz : z.Double)
    (hxm : 0 < x.mantissa) (hym : 0 < y.mantissa) (hzm : 0 < z.mantissa)
    (hv : x.Rounds (y.value + z.value)) :
    y.toFloat false + z.toFloat false = x.toFloat false := by
  show Float.ofModel (.pack (UnpackedFloat.add Format.binary64 (y.toFloat false).toModel.unpack
    (z.toFloat false).toModel.unpack)) = _
  rw [hy.unpack_toFloat, hz.unpack_toFloat, add_unpacked hx hxm hv hym hzm]
  rfl

/-- A magnitude of 53 bits that is a count. -/
structure Counts (x : Binary) (c : UInt32) : Prop where
  double : x.Double
  full : 2 ^ 52 ≤ x.mantissa
  value_eq : x.value = c.toNat
  toFloat_eq : c.toFloat = x.toFloat false

theorem Counts.pos {c : UInt32} (h : x.Counts c) : 0 < x.mantissa :=
  (Nat.two_pow_pos 52).trans_le h.full

end Binary

section
variable {c d : UInt32}

/-- A count is not rounded. -/
theorem exists_counts (hc : c ≠ 0) : ∃ x : Binary, x.Counts c := by
  have hne : c.toNat ≠ 0 := fun h => hc (UInt32.toNat_inj.1 h)
  obtain ⟨x, hx, hfull, hv⟩ := Binary.exists_exact hne (c.toNat_lt.trans (by decide))
    (e := 0) (by decide) (by decide)
  rw [zpow_zero, mul_one] at hv
  refine ⟨x, hx, hfull, hv, ?_⟩
  show Float.ofModel (.pack (UnpackedFloat.ofNat Format.binary64 c.toNat)) = _
  rw [ofNat_eq hne hx ((Nat.two_pow_pos 52).trans_le hfull) (hv ▸ x.rounds_value)]
  rfl

theorem isFinite_toFloat (c : UInt32) : c.toFloat.isFinite := by
  by_cases hc : c = 0
  · rw [hc]
    decide +kernel
  · obtain ⟨x, hx⟩ := exists_counts hc
    rw [hx.toFloat_eq]
    show (x.toFloat false).toModel.unpack.isFinite = true
    rw [hx.double.unpack_toFloat, unpacked_of_pos hx.pos]
    rfl

/-- Counts are compared as floats. -/
theorem toFloat_lt_iff : c.toFloat < d.toFloat ↔ c < d := by
  have hzero : key (0 : UInt32).toFloat = toLex (0, toLex (0, 0)) := by decide +kernel
  rw [FloatOrder.lt_iff (FloatOrder.not_isNaN (isFinite_toFloat c))
    (FloatOrder.not_isNaN (isFinite_toFloat d)), UInt32.lt_iff_toNat_lt]
  by_cases hc : c = 0 <;> by_cases hd : d = 0
  · rw [hc, hd]
    simp
  · obtain ⟨y, hy⟩ := exists_counts hd
    have hpos : d.toNat ≠ 0 := fun h => hd (UInt32.toNat_inj.1 h)
    rw [hc, hzero, hy.toFloat_eq, hy.double.key_toFloat hy.pos]
    refine iff_of_true ?_ (Nat.pos_of_ne_zero hpos)
    simp [Prod.Lex.lt_iff]
  · obtain ⟨x, hx⟩ := exists_counts hc
    rw [hd, hzero, hx.toFloat_eq, hx.double.key_toFloat hx.pos]
    refine iff_of_false ?_ (Nat.not_lt_zero _)
    simp [Prod.Lex.lt_iff]
  · obtain ⟨x, hx⟩ := exists_counts hc
    obtain ⟨y, hy⟩ := exists_counts hd
    have hvalue : x.value < y.value ↔ c.toNat < d.toNat := by
      rw [hx.value_eq, hy.value_eq, Nat.cast_lt]
    rw [← hvalue, hx.double.value_lt_iff hy.double hx.full hy.full, hx.toFloat_eq, hy.toFloat_eq,
      hx.double.key_toFloat hx.pos, hy.double.key_toFloat hy.pos]
    simp [Prod.Lex.lt_iff]

/-- One more as a float is one more as a count. -/
theorem toFloat_add_one (h : c.toNat + 1 < 2 ^ 32) : c.toFloat + 1 = (c + 1).toFloat := by
  by_cases hc : c = 0
  · rw [hc]
    decide +kernel
  have hnat : (c + 1).toNat = c.toNat + 1 := by
    rw [UInt32.toNat_add]
    exact Nat.mod_eq_of_lt h
  have hne : c + 1 ≠ 0 := fun h => by
    rw [h] at hnat
    cases hnat
  obtain ⟨x, hx⟩ := exists_counts hne
  obtain ⟨y, hy⟩ := exists_counts hc
  obtain ⟨z, hz⟩ := exists_counts (c := 1) (by decide)
  have hsum : y.value + z.value = x.value := by
    rw [hx.value_eq, hy.value_eq, hz.value_eq, hnat]
    push_cast
    rfl
  rw [show (1 : Float) = (1 : UInt32).toFloat from rfl, hx.toFloat_eq, hy.toFloat_eq, hz.toFloat_eq]
  exact hx.double.add_toFloat hy.double hz.double hx.pos hy.pos hz.pos (hsum ▸ x.rounds_value)

end

end ScheduleSearch

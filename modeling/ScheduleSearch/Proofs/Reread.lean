/-
  Reading a written float back.

  The reader takes the digits as a float and multiplies or divides it once by a power of ten,
  itself a float, so up to three roundings stand between a decimal and the float that is read.

  * **`reread?_of_exact`**: a float comes back if neither its digits nor the power of ten
    are rounded;
  * **`reread?_isSome`**: a float is always read, even for the largest magnitudes.
-/
import ScheduleSearch.Json.Number
import ScheduleSearch.Proofs.FloatText
import ScheduleSearch.Proofs.Nearest
import ScheduleSearch.Proofs.Rounding

namespace ScheduleSearch

open Float.Model (UnpackedFloat Format)
open Json.NumberText (powerOfTen scaled?)

/-! ## Arithmetic on magnitudes -/

namespace Binary

variable {x y z : Binary}

theorem Double.mul_toFloat (hx : x.Double) (hy : y.Double) (hz : z.Double)
    (hxm : 0 < x.mantissa) (hym : 2 ^ 52 ≤ y.mantissa) (hzm : 0 < z.mantissa)
    (hv : x.Rounds (y.value * z.value)) :
    y.toFloat false * z.toFloat false = x.toFloat false := by
  show Float.ofModel (.pack (UnpackedFloat.mul Format.binary64 (y.toFloat false).toModel.unpack
    (z.toFloat false).toModel.unpack)) = _
  rw [hy.unpack_toFloat, hz.unpack_toFloat, mul_unpacked hx hxm hv hym hzm]
  rfl

theorem Double.div_toFloat (hx : x.Double) (hy : y.Double) (hz : z.Double)
    (hxm : 0 < x.mantissa) (hym : 0 < y.mantissa) (hzm : 0 < z.mantissa)
    (hv : x.Rounds (y.value / z.value)) :
    y.toFloat false / z.toFloat false = x.toFloat false := by
  show Float.ofModel (.pack (UnpackedFloat.div Format.binary64 (y.toFloat false).toModel.unpack
    (z.toFloat false).toModel.unpack)) = _
  rw [hy.unpack_toFloat, hz.unpack_toFloat, div_unpacked hx hxm hv hym hzm]
  rfl

theorem Double.neg_toFloat (hx : x.Double) (negative : Bool) :
    -(x.toFloat negative) = x.toFloat !negative := by
  show Float.ofModel (.pack (x.toFloat negative).toModel.unpack.neg) = _
  rw [hx.unpack_toFloat]
  unfold toFloat unpacked
  split <;> cases negative <;> rfl

theorem Double.isInf_toFloat (hx : x.Double) (negative : Bool) :
    (x.toFloat negative).isInf = false := by
  show (x.toFloat negative).toModel.unpack.isInf = false
  rw [hx.unpack_toFloat]
  unfold unpacked
  split <;> rfl

/-- A natural number as a float is its nearest magnitude. -/
theorem Double.toFloat_eq {n : ℕ} (hx : x.Double) (hn : n ≠ 0) (hlt : n < 2 ^ 64)
    (hxm : 0 < x.mantissa) (hv : x.Rounds n) : n.toUInt64.toFloat = x.toFloat false := by
  show Float.ofModel (.pack (UnpackedFloat.ofNat Format.binary64 n.toUInt64.toNat)) = _
  rw [show n.toUInt64.toNat = n from Nat.mod_eq_of_lt hlt, ofNat_eq hn hx hxm hv]
  rfl

/-- The powers of ten that are tabulated are those that are computed. -/
theorem powerOfTen_eq_ofScientific (n : ℕ) :
    powerOfTen n = .ofModel (.ofScientific 1 (n : ℤ)) := by
  by_cases hn : n < 23
  · have htable : ∀ k : Fin 23, (powerOfTen k).toModel = Float.Model.ofScientific 1 (k : ℕ) := by
      decide +kernel
    exact congrArg Float.ofModel (htable ⟨n, hn⟩)
  · exact dif_neg fun h => hn (by omega)

/-- A power of ten as a float is its nearest magnitude. -/
theorem Double.powerOfTen_eq {n : ℕ} (hx : x.Double) (hn : n ≤ 308) (hxm : 0 < x.mantissa)
    (hv : x.Rounds (10 ^ n)) : powerOfTen n = x.toFloat false := by
  have hround : UnpackedFloat.ofScientific Format.binary64 1 (n : ℤ) = unpacked false x := by
    rw [unpacked_of_pos hxm]
    unfold UnpackedFloat.ofScientific
    rw [dif_neg (by decide), if_neg (by show ¬(n : ℤ) > 2 ^ 11; omega),
      if_neg (by show ¬(n : ℤ) < -(2 ^ 11 + (0 : ℕ)); omega), if_pos (by omega)]
    refine roundWithAccuracy_eq hx hxm hv (.inl ?_) ?_ _
    · show 2 ^ 52 ≤ 1 <<< 53 * 10 ^ n
      exact le_mul_of_le_of_one_le (by decide) (Nat.one_le_pow _ _ (by decide))
    · show (10 : ℚ) ^ n / 2 ^ ((-53 : ℤ) + 0) = ((1 <<< 53 * 10 ^ n : ℕ) : ℚ)
      push_cast
      norm_num
      ring
  rw [powerOfTen_eq_ofScientific, Float.Model.ofScientific, hround]
  rfl

end Binary

/-! ## Scaling by a power of ten -/

section

variable {x y z : Binary} {c n : ℕ} {e : ℤ}

/-- The float of a significand, a power of ten and their product or quotient, each with its
    nearest magnitude. -/
structure Scaled (x y z : Binary) (c : ℕ) (e : ℤ) : Prop where
  double : x.Double ∧ y.Double ∧ z.Double
  normal : 0 < x.mantissa ∧ 2 ^ 52 ≤ y.mantissa ∧ 2 ^ 52 ≤ z.mantissa
  coefficient : y.Rounds c
  power : z.Rounds (10 ^ e.natAbs)
  result : x.Rounds (if 0 ≤ e then y.value * z.value else y.value / z.value)

theorem Scaled.scaled?_eq (h : Scaled x y z c e) (hc : c ≠ 0) (hlt : c < 2 ^ 64)
    (he : e.natAbs ≤ 308) (n : ℕ) :
    scaled? (n + 1) c.toUInt64.toFloat e = some (x.toFloat false) := by
  obtain ⟨⟨hx, hy, hz⟩, ⟨hxm, hym, hzm⟩, hcoefficient, hpower, hresult⟩ := h
  have hypos : 0 < y.mantissa := by omega
  have hzpos : 0 < z.mantissa := by omega
  unfold scaled?
  rw [if_pos he, hy.toFloat_eq hc hlt hypos hcoefficient]
  split at hresult
  · next hnonneg =>
    rw [show e.toNat = e.natAbs by omega, hz.powerOfTen_eq he hzpos hpower,
      hx.mul_toFloat hy hz hxm hym hzpos hresult, if_pos hnonneg]
    simp only [hx.isInf_toFloat, Bool.false_eq_true, if_false]
  · next hneg =>
    rw [if_neg hneg, hz.powerOfTen_eq he hzpos hpower, hx.div_toFloat hy hz hxm hypos hzpos hresult]

/-- Small numbers are always read: division does not overflow. -/
theorem scaled?_isSome_of_neg (w : Float) (hneg : e < 0) (hlow : -616 ≤ e) (n : ℕ) :
    (scaled? (n + 2) w e).isSome := by
  unfold scaled?
  split
  · rw [if_neg (by omega)]
    rfl
  · split
    · rfl
    · rw [if_neg (by omega)]
      unfold scaled?
      rw [if_pos (by omega), if_neg (by omega)]
      rfl

theorem exists_powerOfTen {k : ℕ} (hk : k ≤ 22) :
    ∃ z : Binary, z.Double ∧ 2 ^ 52 ≤ z.mantissa ∧ z.value = 10 ^ k := by
  have hlt : 5 ^ k < 2 ^ 53 :=
    lt_of_le_of_lt (Nat.pow_le_pow_right (by decide) hk) (by norm_num)
  obtain ⟨z, hz, hzm, hvalue⟩ := Binary.exists_exact (by positivity) hlt
    (by omega : (-1000 : ℤ) ≤ k) (by omega : (k : ℤ) ≤ 900)
  refine ⟨z, hz, hzm, ?_⟩
  rw [hvalue, zpow_natCast, Nat.cast_pow, Nat.cast_ofNat, ← mul_pow]
  norm_num

/-- Digits and a power of ten that are floats themselves give the nearest float. -/
theorem scaled?_of_exact (hx : x.Double) (hxm : 0 < x.mantissa) (hv : x.Rounds (c * 10 ^ e))
    (hc : c ≠ 0) (hlt : c < 2 ^ 53) (he : e.natAbs ≤ 22) (n : ℕ) :
    scaled? (n + 1) c.toUInt64.toFloat e = some (x.toFloat false) := by
  obtain ⟨y, hy, hym, hyvalue⟩ := Binary.exists_exact hc hlt
    (by norm_num : (-1000 : ℤ) ≤ 0) (by norm_num : (0 : ℤ) ≤ 900)
  obtain ⟨z, hz, hzm, hzvalue⟩ := exists_powerOfTen he
  rw [zpow_zero, mul_one] at hyvalue
  refine Scaled.scaled?_eq (y := y) (z := z)
    ⟨⟨hx, hy, hz⟩, ⟨hxm, hym, hzm⟩, hyvalue ▸ y.rounds_value, hzvalue ▸ z.rounds_value, ?_⟩
    hc (by omega) (by omega) n
  rw [hyvalue, hzvalue]
  split
  · next hnonneg =>
    rwa [← zpow_natCast, show (e.natAbs : ℤ) = e by omega]
  · next hneg =>
    rwa [← zpow_natCast, show (e.natAbs : ℤ) = -e by omega, zpow_neg, div_inv_eq_mul]

/-- Large numbers are read if they stay below the limit. -/
theorem scaled?_isSome_of_le (hc : c ≠ 0) (hlt : c < 2 ^ 64) (hnonneg : 0 ≤ e) (he : e ≤ 308)
    (hv : (c : ℚ) * 10 ^ e ≤ (2 ^ 53 - 5 / 2) * 2 ^ (971 : ℤ)) (n : ℕ) :
    (scaled? (n + 1) c.toUInt64.toFloat e).isSome := by
  have hleast : (2 : ℚ) ^ (-1021 : ℤ) ≤ 1 / 4 := by
    calc (2 : ℚ) ^ (-1021 : ℤ) ≤ 2 ^ (-2 : ℤ) := zpow_le_zpow_right₀ (by norm_num) (by norm_num)
      _ = 1 / 4 := by norm_num
  have hlimit := Binary.ten_pow_lt_limit
  have hcone : (1 : ℚ) ≤ c := by exact_mod_cast Nat.one_le_iff_ne_zero.2 hc
  have hpone : (1 : ℚ) ≤ 10 ^ e.natAbs := one_le_pow₀ (by norm_num)
  obtain ⟨y, hy, hym, hyrounds⟩ := Binary.exists_rounds (v := c) (by linarith) (by
    refine lt_trans ?_ hlimit
    calc (c : ℚ) < 2 ^ 64 := by exact_mod_cast hlt
      _ < 10 ^ 20 := by norm_num
      _ ≤ 10 ^ 308 := pow_le_pow_right₀ (by norm_num) (by norm_num))
  obtain ⟨z, hz, hzm, hzrounds⟩ := Binary.exists_rounds (v := 10 ^ e.natAbs) (by linarith) (by
    refine lt_of_le_of_lt ?_ hlimit
    exact pow_le_pow_right₀ (by norm_num) (by omega))
  have hylow := hyrounds.le_value (by omega)
  have hzlow := hzrounds.le_value (by omega)
  have hpow : (10 : ℚ) ^ e = 10 ^ e.natAbs := by
    rw [← zpow_natCast, show (e.natAbs : ℤ) = e by omega]
  obtain ⟨x, hx, hxm, hxrounds⟩ := Binary.exists_rounds (v := y.value * z.value)
    (by nlinarith) (Binary.mul_lt_limit hyrounds hzrounds hym hzm (by linarith)
      (by rw [← hpow]; exact hv))
  have hscaled : Scaled x y z c e :=
    ⟨⟨hx, hy, hz⟩, ⟨by omega, hym, hzm⟩, hyrounds, hzrounds, by rwa [if_pos hnonneg]⟩
  rw [hscaled.scaled?_eq hc hlt (by omega) n]
  rfl

end

/-! ## Written floats -/

/-- A sign is put before a magnitude after it is read. -/
theorem Binary.Double.signed_toFloat {m : Binary} (hm : m.Double) (negative : Bool) :
    (if negative then -(m.toFloat false) else m.toFloat false) = m.toFloat negative := by
  cases negative
  · rfl
  · exact hm.neg_toFloat false

variable {x : Float}

theorem reread?_of_scaled (hx : x.isFinite)
    (h : scaled? 4 (Binary.ofFloat x).written.coefficient.toUInt64.toFloat
      (Binary.ofFloat x).written.exponent = some ((Binary.ofFloat x).toFloat false)) :
    reread? x = some x := by
  unfold reread?
  dsimp only
  rw [h, Option.map_some, (double_ofFloat hx).signed_toFloat, toFloat_ofFloat hx]

/-- The decimal that is written for a magnitude rounds to it. -/
theorem Binary.Double.rounds_written {m : Binary} (hm : m.Double) (hne : m.mantissa ≠ 0) :
    m.Rounds m.written.value ∧ m.written.coefficient ≠ 0 := by
  have hshortest := Binary.shortest_spec hm hne .toEven
  have hfits := (writable_shortest hm .toEven).fits
  unfold Binary.written
  exact ⟨hfits.value ▸ hshortest.rounds, hfits.coefficient_ne hshortest.coefficient_ne⟩

/-- Both zeros are read back. -/
theorem reread?_zero (hx : x.isFinite) (hzero : (Binary.ofFloat x).mantissa = 0) :
    reread? x = some x := by
  have hwritten : (Binary.ofFloat x).written = ⟨0, -1⟩ := by
    unfold Binary.written Binary.shortest
    rw [if_pos hzero]
    rfl
  have hfloat : (Binary.ofFloat x).toFloat false = .ofModel (.pack (.zero .positive)) := by
    unfold Binary.toFloat unpacked
    rw [dif_pos hzero]
    rfl
  refine reread?_of_scaled hx ?_
  rw [hwritten, hfloat]
  have hdivision : (scaled? 4 (0 : ℕ).toUInt64.toFloat (-1)).map Float.toModel =
      some (.pack (.zero .positive)) := by decide +kernel
  obtain ⟨y, hy, hmodel⟩ := Option.map_eq_some_iff.1 hdivision
  exact hy.trans (congrArg some (congrArg Float.ofModel hmodel))

/-- **Reading back**: a float comes back if its digits and its power of ten are floats. -/
theorem reread?_of_exact (hx : x.isFinite)
    (hcoefficient : (Binary.ofFloat x).written.coefficient < 2 ^ 53)
    (hexponent : (Binary.ofFloat x).written.exponent.natAbs ≤ 22) : reread? x = some x := by
  by_cases hzero : (Binary.ofFloat x).mantissa = 0
  · exact reread?_zero hx hzero
  · have hdouble := double_ofFloat hx
    obtain ⟨hrounds, hne⟩ := hdouble.rounds_written hzero
    exact reread?_of_scaled hx
      (scaled?_of_exact hdouble (Nat.pos_of_ne_zero hzero) hrounds hne hcoefficient hexponent 3)

/-- The two largest magnitudes, whose decimals lie too close to the limit for a bound. -/
theorem scaled?_isSome_largest : ∀ m ∈ [2 ^ 53 - 1, 2 ^ 53 - 2],
    (scaled? 4 (Binary.mk m 971 false).written.coefficient.toUInt64.toFloat
      (Binary.mk m 971 false).written.exponent).isSome := by
  decide +kernel

/-- All other magnitudes stay below the limit. -/
theorem Binary.Double.upper_le {m : Binary} (hm : m.Double)
    (hsmall : ¬(m.exponent = 971 ∧ 2 ^ 53 - 2 ≤ m.mantissa)) :
    m.upper ≤ (2 ^ 53 - 5 / 2) * 2 ^ (971 : ℤ) := by
  have hle := hm.exponent_le
  have hlt := hm.mantissa_lt
  unfold upper
  by_cases he : m.exponent = 971
  · rw [he]
    have hmantissa : (m.mantissa : ℚ) + 3 ≤ 2 ^ 53 := by
      exact_mod_cast (by omega : m.mantissa + 3 ≤ 2 ^ 53)
    gcongr
    linarith
  · have hmantissa : (m.mantissa : ℚ) + 1 ≤ 2 ^ 53 := by exact_mod_cast hlt
    have hpow : (2 : ℚ) ^ (971 : ℤ) = 2 ^ (970 : ℤ) * 2 := zpow_add_one₀ (by norm_num) 970
    calc ((m.mantissa : ℚ) + 1 / 2) * 2 ^ m.exponent ≤ 2 ^ 53 * 2 ^ (970 : ℤ) := by
          gcongr
          · linarith
          · norm_num
          · omega
      _ ≤ (2 ^ 53 - 5 / 2) * 2 ^ (971 : ℤ) := by
        have hpos : (0 : ℚ) < 2 ^ (970 : ℤ) := by positivity
        rw [hpow]
        generalize (2 : ℚ) ^ (970 : ℤ) = p at hpos
        linarith

/-- **Reading back**: a finite float is always read as some float. -/
theorem reread?_isSome (hx : x.isFinite) : (reread? x).isSome := by
  by_cases hzero : (Binary.ofFloat x).mantissa = 0
  · rw [reread?_zero hx hzero]
    rfl
  have hdouble := double_ofFloat hx
  have hfits := (writable_shortest hdouble .toEven).fits
  obtain ⟨hrounds, hne⟩ := hdouble.rounds_written hzero
  unfold reread?
  dsimp only
  rw [Option.isSome_map]
  generalize Binary.ofFloat x = m at *
  by_cases hneg : m.written.exponent < 0
  · exact scaled?_isSome_of_neg _ hneg hfits.exponent_ge 2
  by_cases hlarge : m.exponent = 971 ∧ 2 ^ 53 - 2 ≤ m.mantissa
  · have hlt := hdouble.mantissa_lt
    have hnarrow : m.narrowBelow = false := by
      by_contra h
      have := (hdouble.narrowBelow.1 (by simpa using h)).1
      omega
    obtain ⟨mantissa, exponent, narrow⟩ := m
    obtain ⟨rfl, hm⟩ : exponent = 971 ∧ 2 ^ 53 - 2 ≤ mantissa := hlarge
    obtain rfl : narrow = false := hnarrow
    have hmem : mantissa ∈ [2 ^ 53 - 1, 2 ^ 53 - 2] := by
      simp only [List.mem_cons, List.not_mem_nil, or_false]
      change mantissa < 2 ^ 53 at hlt
      omega
    exact scaled?_isSome_largest mantissa hmem
  · have hvalue : m.written.value ≤ (2 ^ 53 - 5 / 2) * 2 ^ (971 : ℤ) :=
      (hrounds.2.elim le_of_lt fun h => le_of_eq h.2).trans (hdouble.upper_le hlarge)
    have hone : (1 : ℚ) ≤ m.written.coefficient := by
      exact_mod_cast Nat.one_le_iff_ne_zero.2 hne
    refine scaled?_isSome_of_le hne ?_ (not_lt.1 hneg) ?_ hvalue 3
    · exact lt_of_le_of_lt hfits.coefficient_le (by norm_num)
    · by_contra hgt
      have hten : (10 : ℚ) ^ 309 ≤ m.written.value := by
        calc (10 : ℚ) ^ 309 = 10 ^ (309 : ℤ) := rfl
          _ ≤ 10 ^ m.written.exponent := zpow_le_zpow_right₀ (by norm_num) (by omega)
          _ ≤ m.written.coefficient * 10 ^ m.written.exponent :=
            le_mul_of_one_le_left (by positivity) hone
      have hbelow : (2 ^ 53 - 5 / 2) * 2 ^ (971 : ℤ) ≤ Binary.limit := by
        unfold Binary.limit
        gcongr
        norm_num
      exact absurd (hten.trans (hvalue.trans hbelow)) (not_le.2 Binary.limit_lt_ten_pow)

end ScheduleSearch

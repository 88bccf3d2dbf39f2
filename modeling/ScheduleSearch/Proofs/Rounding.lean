/-
  Rounding to the nearest 64-bit float.

  Arithmetic computes a mantissa, an exponent and where the exact result lies above them, and
  rounds these; rounding shifts the mantissa until it has 53 bits.

  * `Describes` is what a mantissa and its accuracy say of the exact value, and shifting
    keeps it (`Describes.shiftRight`);
  * **`roundWithAccuracy_eq`**: a value among the reals that round to a magnitude is rounded
    to that magnitude;
  * so products, quotients and sums of magnitudes, and natural numbers, are rounded to the
    nearest (`mul_unpacked`, `div_unpacked`, `add_unpacked`, `ofNat_eq`).
-/
import ScheduleSearch.Proofs.FloatBits
import ScheduleSearch.Proofs.Nearest

namespace ScheduleSearch

open Float.Model (UnpackedFloat Format totalExponent)
open Float.Model.UnpackedFloat (Sign Accuracy ExtendedMantissa roundWithAccuracy
  shiftToTargetExponent accuracyOfFraction divCore decreaseExponent)

/-! ## Accuracy -/

/-- Where `u` lies above the mantissa `m`. -/
def Describes (u : ℚ) (m : ℕ) : Accuracy → Prop
  | .exact => u = m
  | .inexact .lt => m < u ∧ u < m + 1 / 2
  | .inexact .eq => u = m + 1 / 2
  | .inexact .gt => m + 1 / 2 < u ∧ u < m + 1

namespace Describes

variable {u : ℚ} {m : ℕ} {accuracy : Accuracy}

theorem le (h : Describes u m accuracy) : (m : ℚ) ≤ u := by
  rcases accuracy with _ | _ | _ | _ <;> simp only [Describes] at h <;> linarith

theorem lt (h : Describes u m accuracy) : u < m + 1 := by
  rcases accuracy with _ | _ | _ | _ <;> simp only [Describes] at h <;> linarith

theorem ofMantissaAndAccuracy (h : Describes u m accuracy) :
    Describes u (ExtendedMantissa.ofMantissaAndAccuracy m accuracy).mantissa
      (ExtendedMantissa.ofMantissaAndAccuracy m accuracy).accuracy := by
  rcases accuracy with _ | _ | _ | _ <;> exact h

theorem shiftRightOne {em : ExtendedMantissa} (h : Describes u em.mantissa em.accuracy) :
    Describes (u / 2) em.shiftRightOne.mantissa em.shiftRightOne.accuracy := by
  obtain ⟨m, round, sticky⟩ := em
  have hsplit : (m : ℚ) = 2 * (m / 2 : ℕ) + (m % 2 : ℕ) := by
    exact_mod_cast (Nat.div_add_mod m 2).symm
  unfold ExtendedMantissa.shiftRightOne
  -- the bit that is shifted out is the new round bit, and the old round bit is sticky
  rcases Nat.mod_two_eq_zero_or_one m with hm | hm
  · have hround : (m % 2 != 0) = false := by rw [hm]; rfl
    rw [hm, Nat.cast_zero] at hsplit
    cases round <;> cases sticky <;>
      simp only [ExtendedMantissa.accuracy, Describes, hround, Bool.or_self, Bool.or_true,
        Bool.or_false] at h ⊢
    case false.false => linarith
    all_goals constructor <;> linarith
  · have hround : (m % 2 != 0) = true := by rw [hm]; rfl
    rw [hm, Nat.cast_one] at hsplit
    cases round <;> cases sticky <;>
      simp only [ExtendedMantissa.accuracy, Describes, hround, Bool.or_self, Bool.or_true,
        Bool.or_false] at h ⊢
    case false.false => linarith
    all_goals constructor <;> linarith

theorem shiftRight {em : ExtendedMantissa} (h : Describes u em.mantissa em.accuracy) (k : ℕ) :
    Describes (u / 2 ^ k) (em >>> k).mantissa (em >>> k).accuracy := by
  show Describes _ (k.repeat ExtendedMantissa.shiftRightOne em).mantissa
    (k.repeat ExtendedMantissa.shiftRightOne em).accuracy
  induction k with
  | zero =>
    rw [pow_zero, div_one]
    exact h
  | succ k ih =>
    have hpow : u / 2 ^ (k + 1) = u / 2 ^ k / 2 := by rw [pow_succ, div_div]
    rw [hpow]
    exact ih.shiftRightOne

/-- What a mantissa is rounded to is the nearest integer. -/
theorem roundToNearestEven_eq (h : Describes u m accuracy) {n : ℕ} (hn : Nearest (1 / 2) u n) :
    accuracy.roundToNearestEven m = n := by
  have hle := hn.sub_le
  have hge := hn.le_add
  rcases accuracy with _ | _ | _ | _ <;> simp only [Describes] at h <;>
    simp only [Accuracy.roundToNearestEven]
  case exact =>
    have h1 : n < m + 1 := by exact_mod_cast (by linarith : (n : ℚ) < m + 1)
    have h2 : m < n + 1 := by exact_mod_cast (by linarith : (m : ℚ) < n + 1)
    omega
  case inexact.lt =>
    have h1 : n < m + 1 := by exact_mod_cast (by linarith : (n : ℚ) < m + 1)
    have h2 : m < n + 1 := by exact_mod_cast (by linarith : (m : ℚ) < n + 1)
    omega
  case inexact.gt =>
    have h1 : n < m + 2 := by exact_mod_cast (by linarith : (n : ℚ) < m + 2)
    have h2 : m < n := by exact_mod_cast (by linarith : (m : ℚ) < n)
    omega
  case inexact.eq =>
    -- a tie: the even one of the two neighbours has both ends
    have h1 : n < m + 1 ∨ n % 2 = 0 ∧ n = m + 1 := by
      rcases hn.low with h' | ⟨heven, h'⟩
      · exact .inl (by exact_mod_cast (by linarith : (n : ℚ) < m + 1))
      · exact .inr ⟨heven, by exact_mod_cast (by linarith : (n : ℚ) = m + 1)⟩
    have h2 : m < n ∨ n % 2 = 0 ∧ m = n := by
      rcases hn.high with h' | ⟨heven, h'⟩
      · exact .inl (by exact_mod_cast (by linarith : (m : ℚ) < n))
      · exact .inr ⟨heven, by exact_mod_cast (by linarith : (m : ℚ) = n)⟩
    omega

end Describes

/-! ## The first shift -/

variable {M : ℕ} {E : ℤ} {accuracy : Accuracy} {v : ℚ}

/-- The exponent that a mantissa is shifted to. -/
def shifted (M : ℕ) (E : ℤ) : ℤ := max (M.log2 + 1 + E - 53) (-1074)

theorem targetExponent_eq (M : ℕ) (E : ℤ) :
    Format.binary64.targetExponent (totalExponent M E) = shifted M E :=
  rfl

theorem le_shifted (M : ℕ) (E : ℤ) : -1074 ≤ shifted M E := le_max_right _ _

/-- There are bits enough: no shift to the left is needed. -/
def Wide (M : ℕ) (E : ℤ) : Prop := 2 ^ 52 ≤ M ∨ E ≤ -1074

theorem Wide.le (h : Wide M E) : E ≤ shifted M E := by
  unfold shifted
  rcases h with h | h
  · have := (Nat.le_log2 (by omega)).2 h
    omega
  · omega

/-- After the first shift the value has 53 bits, or fewer at the least exponent. -/
theorem shifted_bounds (hwide : Wide M E) (h : Describes (v / 2 ^ E) M accuracy) :
    v / 2 ^ shifted M E < 2 ^ 53 ∧ (-1074 < shifted M E → 2 ^ 52 ≤ v / 2 ^ shifted M E) := by
  have hle := hwide.le
  obtain ⟨k, hk⟩ : ∃ k : ℕ, shifted M E = E + k := ⟨(shifted M E - E).toNat, by omega⟩
  have hpow : (2 : ℚ) ^ shifted M E = 2 ^ E * 2 ^ k := by
    rw [hk, zpow_add₀ (by norm_num), zpow_natCast]
  rw [hpow, ← div_div]
  constructor
  · rw [div_lt_iff₀ (by positivity), ← pow_add]
    have hlt : M < 2 ^ (M.log2 + 1) := Nat.lt_log2_self
    have hle' : M + 1 ≤ 2 ^ (53 + k) := hlt.trans_le
      (Nat.pow_le_pow_right (by decide) (by unfold shifted at hk; omega))
    calc v / 2 ^ E < (M : ℚ) + 1 := h.lt
      _ ≤ 2 ^ (53 + k) := by exact_mod_cast hle'
  · intro hgt
    rw [le_div_iff₀ (by positivity), ← pow_add]
    have hne : M ≠ 0 := by
      rintro rfl
      have hleast : E ≤ -1074 := hwide.resolve_left (by decide)
      unfold shifted at hgt
      rw [Nat.log2_zero] at hgt
      omega
    have hself : 2 ^ M.log2 ≤ M := Nat.log2_self_le hne
    have hle' : 2 ^ (52 + k) ≤ M := le_trans
      (Nat.pow_le_pow_right (by decide) (by unfold shifted at hk hgt; omega)) hself
    calc (2 : ℚ) ^ (52 + k) ≤ (M : ℚ) := by exact_mod_cast hle'
      _ ≤ v / 2 ^ E := h.le

/-! ## Rounding -/

variable {x : Binary}

/-- At the exponent of `x`, the mantissa of `x` is the nearest integer to a value that
    rounds to `x`. -/
theorem nearest_mantissa (hx : x.Double) (hv : x.Rounds v)
    (hle : -1074 < x.exponent → 2 ^ 52 ≤ v / 2 ^ x.exponent) :
    Nearest (1 / 2) (v / 2 ^ x.exponent) x.mantissa := by
  have hnear := Binary.rounds_iff_nearest.1 hv
  unfold Binary.gap at hnear
  split at hnear
  · next hnarrow =>
    obtain ⟨hm, he⟩ := hx.narrowBelow.1 hnarrow
    refine ⟨.inl ?_, hnear.high⟩
    have hge := hle he
    rw [hm, Nat.cast_pow, Nat.cast_ofNat]
    linarith
  · exact hnear

variable {T : ℤ}

/-- A value that rounds to `x` is not shifted above the exponent of `x`: it would have too
    few bits there. -/
theorem le_exponent_of_rounds (hx : x.Double) (hv : x.Rounds v)
    (hle : -1074 < T → 2 ^ 52 ≤ v / 2 ^ T) : T ≤ x.exponent := by
  by_contra hlower
  obtain ⟨k, hk⟩ : ∃ k : ℕ, T = x.exponent + (k + 1 : ℕ) :=
    ⟨(T - x.exponent - 1).toNat, by omega⟩
  have hfull := hle (by have := hx.exponent_ge; omega)
  have hunits : v / 2 ^ x.exponent = v / 2 ^ T * (2 * 2 ^ k) := by
    rw [hk, zpow_add₀ (by norm_num), zpow_natCast, pow_succ]
    field_simp
  have hone : (1 : ℚ) ≤ 2 ^ k := one_le_pow₀ (by norm_num)
  have hm : (x.mantissa : ℚ) + 1 ≤ 2 ^ 53 := by exact_mod_cast hx.mantissa_lt
  have hhigh := (Binary.rounds_iff_nearest.1 hv).le_add
  rw [hunits] at hhigh
  nlinarith

/-- A value that rounds to `x` and is shifted below the exponent of `x` lies just below its
    least mantissa. -/
theorem exponent_of_rounds_of_lt (hx : x.Double) (hv : x.Rounds v) (hge : -1074 ≤ T)
    (hlt : v / 2 ^ T < 2 ^ 53) (hupper : T < x.exponent) :
    x.exponent = T + 1 ∧ x.mantissa = 2 ^ 52 ∧ (2 : ℚ) ^ 53 - 1 / 2 ≤ v / 2 ^ T := by
  obtain ⟨k, hk⟩ : ∃ k : ℕ, x.exponent = T + (k + 1 : ℕ) :=
    ⟨(x.exponent - T - 1).toNat, by omega⟩
  have hm : 2 ^ 52 ≤ x.mantissa := hx.le_mantissa (by omega)
  have hm' : (2 : ℚ) ^ 52 ≤ x.mantissa := by exact_mod_cast hm
  have hlow := (Binary.rounds_iff_nearest.1 hv).sub_le
  have hgap := x.gap_le
  have hunits : v / 2 ^ T = v / 2 ^ x.exponent * (2 * 2 ^ k) := by
    rw [hk, zpow_add₀ (by norm_num), zpow_natCast, pow_succ]
    field_simp
  rw [hunits] at hlt
  have hone : (1 : ℚ) ≤ 2 ^ k := one_le_pow₀ (by norm_num)
  have hhalf : v / 2 ^ x.exponent < 2 ^ 52 := by nlinarith
  have hmantissa : x.mantissa = 2 ^ 52 := by
    have : (x.mantissa : ℚ) < 2 ^ 52 + 1 := by linarith
    have : x.mantissa < 2 ^ 52 + 1 := by exact_mod_cast this
    omega
  have hnarrow : x.gap = 1 / 4 := if_pos (hx.narrowBelow.2 ⟨hmantissa, by omega⟩)
  rw [hnarrow, hmantissa, Nat.cast_pow, Nat.cast_ofNat] at hlow
  have hk0 : k = 0 := by
    by_contra hne
    have htwo : (2 : ℚ) ≤ 2 ^ k := by
      calc (2 : ℚ) = 2 ^ 1 := by norm_num
        _ ≤ 2 ^ k := pow_le_pow_right₀ (by norm_num) (by omega)
    nlinarith
  subst hk0
  refine ⟨by omega, hmantissa, ?_⟩
  rw [hunits]
  linarith

theorem shiftToTargetExponent_eq (M : ℕ) (E : ℤ) (accuracy : Accuracy) :
    shiftToTargetExponent Format.binary64 M E accuracy =
      (ExtendedMantissa.ofMantissaAndAccuracy M accuracy >>> (shifted M E - E).toNat,
        E + (shifted M E - E).toNat) :=
  rfl

/-- The mantissa of a magnitude stays where it is. -/
theorem Binary.Double.shifted_eq (hx : x.Double) (hne : x.mantissa ≠ 0) :
    shifted x.mantissa x.exponent = x.exponent := by
  have hlt := (Nat.log2_lt hne).2 hx.mantissa_lt
  have hge := hx.exponent_ge
  unfold shifted
  by_cases hleast : x.exponent = -1074
  · omega
  · have := (Nat.le_log2 hne).2 (hx.le_mantissa (by omega))
    omega

/-- **Rounding**: a value among the reals that round to `x` is rounded to `x`. -/
theorem roundWithAccuracy_eq (hx : x.Double) (hpos : 0 < x.mantissa) (hv : x.Rounds v)
    (hwide : Wide M E) (h : Describes (v / 2 ^ E) M accuracy) (sign : Sign) :
    roundWithAccuracy Format.binary64 sign M E accuracy =
      .finite sign x.mantissa x.exponent hpos := by
  obtain ⟨k, hk⟩ : ∃ k : ℕ, shifted M E = E + k :=
    ⟨(shifted M E - E).toNat, by have := hwide.le; omega⟩
  obtain ⟨hlt, hle⟩ := shifted_bounds hwide h
  have hfirst : shiftToTargetExponent Format.binary64 M E accuracy =
      (ExtendedMantissa.ofMantissaAndAccuracy M accuracy >>> k, shifted M E) := by
    rw [shiftToTargetExponent_eq, hk, add_sub_cancel_left, Int.toNat_natCast]
  have hem := h.ofMantissaAndAccuracy.shiftRight k
  rw [div_div, ← zpow_natCast, ← zpow_add₀ (by norm_num), ← hk] at hem
  generalize ExtendedMantissa.ofMantissaAndAccuracy M accuracy >>> k = em at hfirst hem
  unfold roundWithAccuracy
  rw [hfirst]
  dsimp only
  rcases (le_exponent_of_rounds hx hv hle).eq_or_lt' with he | hupper
  · have hmantissa : em.roundedMantissa = x.mantissa :=
      Describes.roundToNearestEven_eq (he ▸ hem) (nearest_mantissa hx hv (he ▸ hle))
    rw [hmantissa, ← he, shiftToTargetExponent_eq, hx.shifted_eq hpos.ne', sub_self]
    exact (dif_neg hpos.ne').trans (finite_congr rfl (add_zero _))
  · -- the mantissa is rounded up to 54 bits, and shifted once more
    obtain ⟨he, hm, hge⟩ := exponent_of_rounds_of_lt hx hv (le_shifted M E) hlt hupper
    have hmantissa : em.roundedMantissa = 2 ^ 53 := by
      refine hem.roundToNearestEven_eq ?_
      rw [nearest_iff, Nat.cast_pow, Nat.cast_ofNat]
      exact ⟨hge.lt_or_eq.imp_right fun h => ⟨rfl, h.symm⟩, .inl (by linarith)⟩
    have hlog : shifted (2 ^ 53) (shifted M E) = shifted M E + 1 := by
      have hge := le_shifted M E
      unfold shifted at hge ⊢
      rw [Nat.log2_two_pow]
      omega
    rw [hmantissa, shiftToTargetExponent_eq, hlog, add_sub_cancel_left]
    have hne : ((2 ^ 53 : ℕ) / 2 : ℕ) ≠ 0 := by norm_num
    refine (dif_neg hne).trans (finite_congr ?_ he.symm)
    rw [hm]
    rfl

/-! ## Operations -/

theorem unpacked_of_pos {x : Binary} (hpos : 0 < x.mantissa) (negative : Bool) :
    unpacked negative x = .finite (signOf negative) x.mantissa x.exponent hpos :=
  dif_neg hpos.ne'

variable {y z : Binary}

/-- A product is rounded to the nearest magnitude. -/
theorem mul_unpacked (hx : x.Double) (hpos : 0 < x.mantissa) (hv : x.Rounds (y.value * z.value))
    (hy : 2 ^ 52 ≤ y.mantissa) (hz : 0 < z.mantissa) :
    UnpackedFloat.mul Format.binary64 (unpacked false y) (unpacked false z) =
      unpacked false x := by
  rw [unpacked_of_pos hpos, unpacked_of_pos hz, unpacked_of_pos (by omega : 0 < y.mantissa)]
  refine roundWithAccuracy_eq hx hpos hv (.inl (le_mul_of_le_of_one_le hy hz)) ?_ _
  show y.value * z.value / 2 ^ (y.exponent + z.exponent) = (y.mantissa * z.mantissa : ℕ)
  unfold Binary.value
  rw [zpow_add₀ (by norm_num)]
  push_cast
  field_simp

theorem describes_div (n : ℕ) {d : ℕ} (hd : 0 < d) :
    Describes ((n : ℚ) / d) (n / d) (accuracyOfFraction (n % d) d) := by
  have hpos : (0 : ℚ) < d := by exact_mod_cast hd
  have hsplit : (n : ℚ) / d = (n / d : ℕ) + (n % d : ℕ) / d := by
    have : (n : ℚ) = d * (n / d : ℕ) + (n % d : ℕ) := by exact_mod_cast (Nat.div_add_mod n d).symm
    field_simp
    linarith
  have hrem : ((n % d : ℕ) : ℚ) / d < 1 := by
    rw [div_lt_one hpos]
    exact_mod_cast Nat.mod_lt n hd
  rw [hsplit]
  unfold accuracyOfFraction
  split
  · next hzero => simp [Describes, hzero]
  · next hne =>
    have hrpos : (0 : ℚ) < (n % d : ℕ) / d := by
      have : 0 < n % d := Nat.pos_of_ne_zero hne
      positivity
    rcases hcompare : compare (2 * (n % d)) d <;> simp only [Describes]
    · have hlt : (2 * (n % d : ℕ) : ℚ) < d := by exact_mod_cast compare_lt_iff_lt.1 hcompare
      have : ((n % d : ℕ) : ℚ) / d < 1 / 2 := by
        rw [div_lt_iff₀ hpos]
        linarith
      constructor <;> linarith
    · have heq : (2 * (n % d : ℕ) : ℚ) = d := by exact_mod_cast compare_eq_iff_eq.1 hcompare
      have : ((n % d : ℕ) : ℚ) / d = 1 / 2 := by
        rw [div_eq_iff hpos.ne']
        linarith
      linarith
    · have hgt : (d : ℚ) < 2 * (n % d : ℕ) := by exact_mod_cast compare_gt_iff_gt.1 hcompare
      have : 1 / 2 < ((n % d : ℕ) : ℚ) / d := by
        rw [lt_div_iff₀ hpos]
        linarith
      constructor <;> linarith

/-- A quotient is computed to 53 bits, or to the least exponent. -/
theorem divCore_spec {m n : ℕ} (hm : 0 < m) (hn : 0 < n) (d e : ℤ) :
    ∃ M E accuracy, divCore Format.binary64 m d n e = (M, E, accuracy) ∧ Wide M E ∧
      Describes ((m * 2 ^ d) / (n * 2 ^ e) / 2 ^ E) M accuracy := by
  obtain ⟨T, hT⟩ : ∃ T, T = min (d - e)
      (Format.binary64.targetExponent (totalExponent m d - totalExponent n e)) := ⟨_, rfl⟩
  obtain ⟨k, hk⟩ : ∃ k : ℕ, d - e = T + k := ⟨(d - e - T).toNat, by omega⟩
  have hcore : divCore Format.binary64 m d n e =
      (m <<< k / n, T, accuracyOfFraction (m <<< k % n) n) := by
    unfold divCore
    rw [← hT]
    dsimp only
    rw [hk, add_sub_cancel_left, Int.toNat_natCast]
  refine ⟨_, _, _, hcore, ?_, ?_⟩
  · refine or_iff_not_imp_right.2 fun hgt => ?_
    -- the dividend has 53 bits more than the divisor
    have hbits : n.log2 + 53 ≤ m.log2 + k := by
      have htarget : Format.binary64.targetExponent (totalExponent m d - totalExponent n e) =
        max (m.log2 + 1 + d - (n.log2 + 1 + e) - 53) (-1074) := rfl
      rw [htarget] at hT
      omega
    rw [Nat.le_div_iff_mul_le hn, Nat.shiftLeft_eq]
    calc 2 ^ 52 * n ≤ 2 ^ 52 * 2 ^ (n.log2 + 1) := Nat.mul_le_mul_left _ Nat.lt_log2_self.le
      _ = 2 ^ (n.log2 + 53) := by rw [← pow_add]; congr 1; omega
      _ ≤ 2 ^ (m.log2 + k) := Nat.pow_le_pow_right (by decide) hbits
      _ = 2 ^ m.log2 * 2 ^ k := pow_add _ _ _
      _ ≤ m * 2 ^ k := Nat.mul_le_mul_right _ (Nat.log2_self_le hm.ne')
  · have hvalue : ((m : ℚ) * 2 ^ d) / (n * 2 ^ e) / 2 ^ T = ((m <<< k : ℕ) : ℚ) / n := by
      have hd : (2 : ℚ) ^ d = 2 ^ e * 2 ^ T * 2 ^ k := by
        rw [← zpow_natCast, ← zpow_add₀ (by norm_num), ← zpow_add₀ (by norm_num)]
        congr 1
        omega
      rw [hd, Nat.shiftLeft_eq]
      push_cast
      field_simp
    rw [hvalue]
    exact describes_div _ hn

/-- A quotient is rounded to the nearest magnitude. -/
theorem div_unpacked (hx : x.Double) (hpos : 0 < x.mantissa) (hv : x.Rounds (y.value / z.value))
    (hy : 0 < y.mantissa) (hz : 0 < z.mantissa) :
    UnpackedFloat.div Format.binary64 (unpacked false y) (unpacked false z) =
      unpacked false x := by
  obtain ⟨M, E, accuracy, hcore, hwide, h⟩ := divCore_spec hy hz y.exponent z.exponent
  rw [unpacked_of_pos hpos, unpacked_of_pos hz, unpacked_of_pos hy]
  unfold UnpackedFloat.div
  simp only [hcore]
  exact roundWithAccuracy_eq hx hpos hv hwide h _

/-- A mantissa that is given exactly is rounded to the nearest magnitude. -/
theorem round_eq {n : ℕ} (hn : n ≠ 0) {e : ℤ} (hx : x.Double) (hpos : 0 < x.mantissa)
    (hv : x.Rounds (n * 2 ^ e)) (sign : Sign) :
    UnpackedFloat.round Format.binary64 sign n e = .finite sign x.mantissa x.exponent hpos := by
  obtain ⟨k, hk⟩ : ∃ k : ℕ, k = (e - shifted n e).toNat := ⟨_, rfl⟩
  have hdecrease : decreaseExponent n e (Format.binary64.targetExponent (totalExponent n e)) =
      (n <<< k, e - k) := by
    rw [targetExponent_eq]
    unfold decreaseExponent
    rw [← hk]
  unfold UnpackedFloat.round
  dsimp only
  rw [hdecrease]
  refine roundWithAccuracy_eq hx hpos hv ?_ ?_ sign
  · unfold shifted at hk
    by_cases hleast : e - k ≤ -1074
    · exact .inr hleast
    · have hbits : 52 ≤ n.log2 + k := by omega
      refine .inl ?_
      rw [Nat.shiftLeft_eq]
      calc 2 ^ 52 ≤ 2 ^ (n.log2 + k) := Nat.pow_le_pow_right (by decide) hbits
        _ = 2 ^ n.log2 * 2 ^ k := pow_add _ _ _
        _ ≤ n * 2 ^ k := Nat.mul_le_mul_right _ (Nat.log2_self_le hn)
  · show (n : ℚ) * 2 ^ e / 2 ^ (e - k) = (n <<< k : ℕ)
    rw [Nat.shiftLeft_eq, zpow_sub₀ (by norm_num), zpow_natCast]
    push_cast
    field_simp

/-- A natural number is rounded to the nearest magnitude. -/
theorem ofNat_eq {n : ℕ} (hn : n ≠ 0) (hx : x.Double) (hpos : 0 < x.mantissa) (hv : x.Rounds n) :
    UnpackedFloat.ofNat Format.binary64 n = unpacked false x := by
  have hcompare : compare (n : ℤ) 0 = .gt := compare_gt_iff_gt.2 (by omega)
  unfold UnpackedFloat.ofNat UnpackedFloat.ofInt UnpackedFloat.normalize
  rw [hcompare]
  dsimp only
  rw [Int.toNat_natCast, unpacked_of_pos hpos]
  exact round_eq hn hx hpos (by rwa [zpow_zero, mul_one]) _

/-- A sum is rounded to the nearest magnitude. -/
theorem add_unpacked (hx : x.Double) (hpos : 0 < x.mantissa) (hv : x.Rounds (y.value + z.value))
    (hy : 0 < y.mantissa) (hz : 0 < z.mantissa) :
    UnpackedFloat.add Format.binary64 (unpacked false y) (unpacked false z) =
      unpacked false x := by
  obtain ⟨E, hE⟩ : ∃ E, E = min y.exponent z.exponent := ⟨_, rfl⟩
  obtain ⟨i, hi⟩ : ∃ i : ℕ, y.exponent = E + i := ⟨(y.exponent - E).toNat, by omega⟩
  obtain ⟨j, hj⟩ : ∃ j : ℕ, z.exponent = E + j := ⟨(z.exponent - E).toNat, by omega⟩
  have hsum : UnpackedFloat.add Format.binary64 (unpacked false y) (unpacked false z) =
      UnpackedFloat.normalize Format.binary64 ((y.mantissa <<< i + z.mantissa <<< j : ℕ) : ℤ) E
        .positive := by
    rw [unpacked_of_pos hy, unpacked_of_pos hz]
    unfold UnpackedFloat.add decreaseExponent
    dsimp only
    rw [← hE, hi, hj, add_sub_cancel_left, add_sub_cancel_left]
    rfl
  have hne : y.mantissa <<< i + z.mantissa <<< j ≠ 0 := by
    rw [Nat.shiftLeft_eq]
    exact (Nat.add_pos_left (Nat.mul_pos hy (Nat.two_pow_pos i)) _).ne'
  have hcompare : compare ((y.mantissa <<< i + z.mantissa <<< j : ℕ) : ℤ) 0 = .gt :=
    compare_gt_iff_gt.2 (Int.natCast_pos.2 (Nat.pos_of_ne_zero hne))
  rw [hsum, UnpackedFloat.normalize, hcompare]
  dsimp only
  rw [Int.toNat_natCast, unpacked_of_pos hpos]
  refine round_eq hne hx hpos ?_ _
  have hvalue : ((y.mantissa <<< i + z.mantissa <<< j : ℕ) : ℚ) * 2 ^ E = y.value + z.value := by
    unfold Binary.value
    rw [hi, hj, zpow_add₀ (by norm_num), zpow_add₀ (by norm_num), zpow_natCast, zpow_natCast,
      Nat.shiftLeft_eq, Nat.shiftLeft_eq]
    push_cast
    ring
  rwa [hvalue]

end ScheduleSearch

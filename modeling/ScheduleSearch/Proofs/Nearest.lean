/-
  The nearest magnitude of a number.

  * `Nearest` is the nearest integer, of two equally near ones the even one, and
    `rounds_iff_nearest` the same of magnitudes;
  * **`exists_rounds`**: every number from `2 ^ -1021` up to the largest float, and half a
    place more, rounds to a magnitude of 53 bits;
  * `exists_exact`: an integer of 53 bits is such a magnitude itself;
  * `Rounds.value_le`: rounding up adds at most one part in `2 ^ 53 - 1`.
-/
import ScheduleSearch.Proofs.Shortest

namespace ScheduleSearch

/-! ## Nearest integers -/

/-- `n` is the integer nearest to `u`, of two equally near ones the even one; below `n` a
    distance of `below` counts as equally near. -/
structure Nearest (below u : ℚ) (n : ℕ) : Prop where
  low : (n : ℚ) - below < u ∨ n % 2 = 0 ∧ u = n - below
  high : u < n + 1 / 2 ∨ n % 2 = 0 ∧ u = n + 1 / 2

section

variable {below u : ℚ} {n : ℕ}

theorem nearest_iff : Nearest below u n ↔ ((n : ℚ) - below < u ∨ n % 2 = 0 ∧ u = n - below) ∧
    (u < n + 1 / 2 ∨ n % 2 = 0 ∧ u = n + 1 / 2) :=
  ⟨fun h => ⟨h.low, h.high⟩, fun h => ⟨h.1, h.2⟩⟩

theorem Nearest.sub_le (h : Nearest below u n) : (n : ℚ) - below ≤ u :=
  h.low.elim le_of_lt fun h => ge_of_eq h.2

theorem Nearest.le_add (h : Nearest below u n) : u ≤ n + 1 / 2 :=
  h.high.elim le_of_lt fun h => le_of_eq h.2

theorem exists_nearest (hu : 0 ≤ u) : ∃ n : ℕ, Nearest (1 / 2) u n := by
  have hfloor := Nat.floor_le hu
  have hlt := Nat.lt_floor_add_one u
  generalize ⌊u⌋₊ = q at hfloor hlt
  rcases lt_trichotomy u (q + 1 / 2) with hbelow | hhalf | habove
  · exact ⟨q, .inl (by linarith), .inl hbelow⟩
  · rcases Nat.mod_two_eq_zero_or_one q with heven | hodd
    · exact ⟨q, .inl (by linarith), .inr ⟨heven, hhalf⟩⟩
    · refine ⟨q + 1, .inr ⟨by omega, ?_⟩, .inl ?_⟩ <;> push_cast <;> linarith
  · refine ⟨q + 1, .inl ?_, .inl ?_⟩ <;> push_cast <;> linarith

end

namespace Binary

/-! ## The limit -/

/-- The numbers below which rounding does not overflow. -/
def limit : ℚ := (2 ^ 53 - 1 / 2) * 2 ^ (971 : ℤ)

/-- The largest power of ten that the reader multiplies by lies below the limit. -/
theorem ten_pow_lt_limit : (10 : ℚ) ^ 308 < limit := by
  have hpow : (2 : ℚ) ^ (253 * 4) = 2 ^ 41 * 2 ^ 971 := pow_add 2 41 971
  calc (10 : ℚ) ^ 308 = (10 ^ 77) ^ 4 := pow_mul 10 77 4
    _ ≤ (7 * 2 ^ 253) ^ 4 := pow_le_pow_left₀ (by norm_num) (by norm_num) 4
    _ = 7 ^ 4 * 2 ^ 41 * 2 ^ (971 : ℤ) := by
      rw [mul_pow, ← pow_mul, hpow, mul_assoc]
      rfl
    _ < limit := by
      unfold limit
      gcongr
      norm_num

/-- Numbers below the limit have at most 309 digits before the point. -/
theorem limit_lt_ten_pow : limit < 10 ^ 309 := by
  have hpow : (2 : ℚ) ^ (93 * 11) = 2 ^ 52 * 2 ^ 971 := pow_add 2 52 971
  calc limit < 2 ^ 53 * 2 ^ (971 : ℤ) := by
        unfold limit
        gcongr
        norm_num
    _ = 2 * (2 ^ 93) ^ 11 := by
      rw [← pow_mul, hpow, ← mul_assoc, ← pow_succ']
      rfl
    _ ≤ 2 * (10 ^ 28) ^ 11 := by gcongr; norm_num
    _ = 2 * 10 ^ 308 := by rw [← pow_mul]
    _ < 10 ^ 308 * 10 := by
      rw [mul_comm]
      gcongr
      norm_num
    _ = 10 ^ 309 := (pow_succ 10 308).symm

/-- The distance at which numbers below the magnitude still round to it, in units of its
    last place. -/
def gap (x : Binary) : ℚ := if x.narrowBelow then 1 / 4 else 1 / 2

theorem gap_le (x : Binary) : x.gap ≤ 1 / 2 := by
  unfold gap
  split <;> norm_num

/-- A number rounds to a magnitude if the mantissa is nearest in units of the last place. -/
theorem rounds_iff_nearest {x : Binary} {v : ℚ} :
    x.Rounds v ↔ Nearest x.gap (v / 2 ^ x.exponent) x.mantissa := by
  have hpos : (0 : ℚ) < 2 ^ x.exponent := by positivity
  rw [nearest_iff, lt_div_iff₀ hpos, div_lt_iff₀ hpos, div_eq_iff hpos.ne', div_eq_iff hpos.ne']
  rfl

/-! ## Magnitudes of 53 bits -/

/-- The magnitude of a mantissa of 53 bits. -/
def normal (m : ℕ) (e : ℤ) : Binary := ⟨m, e, m == 2 ^ 52⟩

theorem double_normal {m : ℕ} {e : ℤ} (hlow : 2 ^ 52 ≤ m) (hhigh : m < 2 ^ 53)
    (hge : -1074 < e) (hle : e ≤ 971) : (normal m e).Double where
  mantissa_lt := hhigh
  exponent_ge := hge.le
  exponent_le := hle
  le_mantissa _ := hlow
  narrowBelow := by
    show (m == 2 ^ 52) = true ↔ m = 2 ^ 52 ∧ -1074 < e
    rw [beq_iff_eq]
    exact ⟨fun h => ⟨h, hge⟩, And.left⟩

theorem gap_normal (m : ℕ) (e : ℤ) : (normal m e).gap = if m = 2 ^ 52 then 1 / 4 else 1 / 2 := by
  unfold gap normal
  simp only [beq_iff_eq]

theorem rounds_normal {m : ℕ} {e : ℤ} {u : ℚ}
    (h : Nearest (if m = 2 ^ 52 then 1 / 4 else 1 / 2) u m) : (normal m e).Rounds (u * 2 ^ e) := by
  have hunits : u * 2 ^ e / 2 ^ (normal m e).exponent = u :=
    mul_div_cancel_right₀ u (by positivity)
  rw [rounds_iff_nearest, hunits, gap_normal]
  exact h

/-- A number in the range of the magnitudes of 53 bits has units with 53 bits before the
    point. -/
theorem exists_units {v : ℚ} (hleast : 2 ^ (-1021 : ℤ) ≤ v) (hlimit : v < limit) :
    ∃ (u : ℚ) (e : ℤ), v = u * 2 ^ e ∧ (2 ^ 52 ≤ u ∧ u < 2 ^ 53) ∧ -1074 < e ∧ e ≤ 971 := by
  have hvpos : 0 < v := lt_of_lt_of_le (by positivity) hleast
  obtain ⟨e, he⟩ : ∃ e, Int.log 2 v = e + 52 := ⟨Int.log 2 v - 52, by omega⟩
  have hpos : (0 : ℚ) < 2 ^ e := by positivity
  have hself : ((2 : ℕ) : ℚ) ^ Int.log 2 v ≤ v := Int.zpow_log_le_self (by decide) hvpos
  have hsucc : v < ((2 : ℕ) : ℚ) ^ (Int.log 2 v + 1) := Int.lt_zpow_succ_log_self (by decide) v
  rw [he, Nat.cast_ofNat, zpow_add₀ (by norm_num), mul_comm] at hself
  rw [he, Nat.cast_ofNat, add_assoc, zpow_add₀ (by norm_num), mul_comm] at hsucc
  have hmin : -1021 ≤ Int.log 2 v := (Int.zpow_le_iff_le_log (by decide) hvpos).1 hleast
  have hmax : Int.log 2 v < 1024 := by
    refine (Int.lt_zpow_iff_log_lt (by decide) hvpos).1 (hlimit.trans ?_)
    rw [limit, Nat.cast_ofNat, show (1024 : ℤ) = 53 + 971 by norm_num, zpow_add₀ (by norm_num)]
    gcongr
    norm_num
  exact ⟨v / 2 ^ e, e, by field_simp, ⟨(le_div_iff₀ hpos).2 hself, (div_lt_iff₀ hpos).2 hsucc⟩,
    by omega, by omega⟩

/-- **Rounding**: every number in the range of the magnitudes of 53 bits has a nearest one. -/
theorem exists_rounds {v : ℚ} (hleast : 2 ^ (-1021 : ℤ) ≤ v) (hlimit : v < limit) :
    ∃ x : Binary, x.Double ∧ 2 ^ 52 ≤ x.mantissa ∧ x.Rounds v := by
  obtain ⟨u, e, rfl, ⟨hge, hlt⟩, hlow, hhigh⟩ := exists_units hleast hlimit
  obtain ⟨n, hn⟩ := exists_nearest (u := u) (by linarith)
  have hn52 : 2 ^ 52 ≤ n := by
    have : (2 : ℚ) ^ 52 < n + 1 := by linarith [hn.le_add]
    exact Nat.lt_succ_iff.1 (by exact_mod_cast this)
  have hn53 : n ≤ 2 ^ 53 := by
    have : (n : ℚ) < 2 ^ 53 + 1 := by linarith [hn.sub_le]
    exact Nat.lt_succ_iff.1 (by exact_mod_cast this)
  rcases Nat.lt_or_eq_of_le hn53 with hbits | rfl
  · refine ⟨normal n e, double_normal hn52 hbits hlow hhigh, hn52, rounds_normal ?_⟩
    split
    · next heq =>
      refine ⟨.inl ?_, hn.high⟩
      rw [heq, Nat.cast_pow, Nat.cast_ofNat]
      linarith
    · exact hn
  · -- the mantissa is rounded up to 54 bits: the magnitude is a power of two
    have hnear := hn.sub_le
    rw [Nat.cast_pow, Nat.cast_ofNat] at hnear
    have hne : e ≠ 971 := by
      rintro rfl
      exact absurd (lt_of_mul_lt_mul_right hlimit (by positivity)) (not_lt.2 hnear)
    have hhalf : u * 2 ^ e = u / 2 * 2 ^ (e + 1) := by
      rw [zpow_add_one₀ (by norm_num)]
      ring
    rw [hhalf]
    refine ⟨normal (2 ^ 52) (e + 1), double_normal le_rfl (by decide) (by omega) (by omega), le_rfl,
      rounds_normal ?_⟩
    rw [if_pos rfl, nearest_iff, Nat.cast_pow, Nat.cast_ofNat]
    refine ⟨hnear.lt_or_eq.imp (fun h => ?_) fun h => ⟨by decide, ?_⟩, .inl ?_⟩ <;> linarith

/-- An integer of 53 bits, times a power of two, is a magnitude. -/
theorem exists_exact {m : ℕ} (hm : m ≠ 0) (hlt : m < 2 ^ 53) {e : ℤ} (hlow : -1000 ≤ e)
    (hhigh : e ≤ 900) :
    ∃ x : Binary, x.Double ∧ 2 ^ 52 ≤ x.mantissa ∧ x.value = m * 2 ^ e := by
  have hlog : m.log2 < 53 := (Nat.log2_lt hm).2 hlt
  obtain ⟨k, hk⟩ : ∃ k, m.log2 + k = 52 := ⟨52 - m.log2, by omega⟩
  have hfull : 2 ^ 52 ≤ m * 2 ^ k := by
    rw [← hk, pow_add]
    exact Nat.mul_le_mul_right _ (Nat.log2_self_le hm)
  have hbits : m * 2 ^ k < 2 ^ 53 := by
    rw [show 53 = m.log2 + 1 + k by omega, pow_add]
    exact Nat.mul_lt_mul_of_pos_right Nat.lt_log2_self (Nat.two_pow_pos k)
  refine ⟨normal (m * 2 ^ k) (e - k), double_normal hfull hbits (by omega) (by omega), hfull, ?_⟩
  unfold value normal
  rw [Nat.cast_mul, Nat.cast_pow, Nat.cast_ofNat, mul_assoc, ← zpow_natCast,
    ← zpow_add₀ (by norm_num), add_sub_cancel]

/-! ## Bounds -/

/-- Rounding adds at most one part in `2 ^ 53 - 1`. -/
theorem Rounds.value_le {x : Binary} {v : ℚ} (hv : x.Rounds v) (hm : 2 ^ 52 ≤ x.mantissa) :
    x.value * (2 ^ 53 - 1) ≤ v * 2 ^ 53 := by
  have hm' : (2 : ℚ) ^ 52 ≤ x.mantissa := by exact_mod_cast hm
  have hpos : (0 : ℚ) < 2 ^ x.exponent := by positivity
  have hhalf : ((x.mantissa : ℚ) - 1 / 2) * 2 ^ x.exponent ≤ v := by
    rw [← le_div_iff₀ hpos]
    linarith [(rounds_iff_nearest.1 hv).sub_le, x.gap_le]
  unfold value
  calc x.mantissa * 2 ^ x.exponent * (2 ^ 53 - 1)
      ≤ ((x.mantissa : ℚ) - 1 / 2) * 2 ^ x.exponent * 2 ^ 53 := by
        nlinarith
    _ ≤ v * 2 ^ 53 := by gcongr

/-- Rounding takes away less than half. -/
theorem Rounds.le_value {x : Binary} {v : ℚ} (hv : x.Rounds v) (hm : 0 < x.mantissa) :
    v ≤ 2 * x.value := by
  have hm' : (1 : ℚ) ≤ x.mantissa := by exact_mod_cast hm
  have hpos : (0 : ℚ) < 2 ^ x.exponent := by positivity
  have hupper := (rounds_iff_nearest.1 hv).le_add
  rw [div_le_iff₀ hpos] at hupper
  unfold value
  nlinarith

/-- Two rounded factors stay below the limit if their product is five halves of a place
    below the next power of two. -/
theorem mul_lt_limit {y z : Binary} {a b : ℚ} (hy : y.Rounds a) (hz : z.Rounds b)
    (hym : 2 ^ 52 ≤ y.mantissa) (hzm : 2 ^ 52 ≤ z.mantissa) (ha : 0 ≤ a)
    (hab : a * b ≤ (2 ^ 53 - 5 / 2) * 2 ^ (971 : ℤ)) : y.value * z.value < limit := by
  have hyle := hy.value_le hym
  have hzle := hz.value_le hzm
  have hznonneg : 0 ≤ z.value := by
    unfold value
    positivity
  have hprod : y.value * z.value * (2 ^ 53 - 1) ^ 2 ≤ a * b * (2 ^ 53) ^ 2 := by
    calc y.value * z.value * (2 ^ 53 - 1) ^ 2
        = y.value * (2 ^ 53 - 1) * (z.value * (2 ^ 53 - 1)) := by ring
      _ ≤ a * 2 ^ 53 * (b * 2 ^ 53) := by
        gcongr
      _ = a * b * (2 ^ 53) ^ 2 := by ring
  have hpos : (0 : ℚ) < 2 ^ (971 : ℤ) := by positivity
  unfold limit
  generalize (2 : ℚ) ^ (971 : ℤ) = p at hab hpos
  have hlt : (2 ^ 53 - 5 / 2) * p * (2 ^ 53) ^ 2 < (2 ^ 53 - 1 / 2) * p * (2 ^ 53 - 1 : ℚ) ^ 2 := by
    nlinarith
  nlinarith

end Binary

end ScheduleSearch

/-
  The shortest decimal of a finite float.

  * `Decimal.value` and `Binary.value` are the exact numbers, and `compareScaled` compares
    them;
  * `Binary.Double` are the magnitudes of 64-bit floats: `readsBack_iff` says which decimals
    lie among the reals that round to one;
  * 17 digits are always enough, so `shortest` never falls back to the exact decimal
    (`exists_onGrid?`);
  * **`shortest_spec`**: the shortest decimal of a magnitude other than zero reads back, has
    at most 17 digits, and a leading digit near that of the magnitude.
-/
import Mathlib
import ScheduleSearch.Decimal.Basic

namespace ScheduleSearch

/-- The number that is denoted. -/
def Decimal.value (d : Decimal) : ℚ := d.coefficient * 10 ^ d.exponent

namespace Binary

/-- The number that is denoted. -/
def value (x : Binary) : ℚ := x.mantissa * 2 ^ x.exponent

/-- A magnitude of a finite 64-bit float. -/
structure Double (x : Binary) : Prop where
  mantissa_lt : x.mantissa < 2 ^ 53
  exponent_ge : -1074 ≤ x.exponent
  exponent_le : x.exponent ≤ 971
  /-- only the smallest magnitudes have fewer than 53 bits -/
  le_mantissa : -1074 < x.exponent → 2 ^ 52 ≤ x.mantissa
  narrowBelow : x.narrowBelow = true ↔ x.mantissa = 2 ^ 52 ∧ -1074 < x.exponent

/-! ## Comparing -/

theorem zpow_mul_toNat {b : ℚ} (hb : b ≠ 0) (i : ℤ) :
    b ^ i * b ^ (-i).toNat = b ^ i.toNat := by
  rw [← zpow_natCast, ← zpow_natCast, ← zpow_add₀ hb]
  congr 1
  omega

/-- What both sides of a comparison are multiplied by. -/
theorem scaled_eq (a : Nat) (i : ℤ) (n : Nat) (j : ℤ) :
    ((a * Nat.pow 10 i.toNat * Nat.pow 2 (-j).toNat : Nat) : ℚ) =
        a * 10 ^ i * (10 ^ (-i).toNat * 2 ^ (-j).toNat) ∧
      ((n * Nat.pow 2 j.toNat * Nat.pow 10 (-i).toNat : Nat) : ℚ) =
        n * 2 ^ j * (10 ^ (-i).toNat * 2 ^ (-j).toNat) := by
  have h10 := zpow_mul_toNat (b := 10) (by norm_num) i
  have h2 := zpow_mul_toNat (b := 2) (by norm_num) j
  constructor
  · rw [show (a * Nat.pow 10 i.toNat * Nat.pow 2 (-j).toNat : Nat) =
      a * 10 ^ i.toNat * 2 ^ (-j).toNat from rfl]
    push_cast
    rw [← h10]
    ring
  · rw [show (n * Nat.pow 2 j.toNat * Nat.pow 10 (-i).toNat : Nat) =
      n * 2 ^ j.toNat * 10 ^ (-i).toNat from rfl]
    push_cast
    rw [← h2]
    ring

theorem compareScaled_eq (a : Nat) (i : ℤ) (n : Nat) (j : ℤ) :
    compareScaled a i n j = compare ((a : ℚ) * 10 ^ i) (n * 2 ^ j) := by
  obtain ⟨hleft, hright⟩ := scaled_eq a i n j
  have hpos : (0 : ℚ) < 10 ^ (-i).toNat * 2 ^ (-j).toNat := by positivity
  unfold compareScaled
  generalize a * Nat.pow 10 i.toNat * Nat.pow 2 (-j).toNat = left at hleft
  generalize n * Nat.pow 2 j.toNat * Nat.pow 10 (-i).toNat = right at hright
  rcases lt_trichotomy ((a : ℚ) * 10 ^ i) (n * 2 ^ j) with h | h | h
  · rw [compare_lt_iff_lt.2 h, Nat.compare_eq_lt]
    exact_mod_cast hleft ▸ hright ▸ mul_lt_mul_of_pos_right h hpos
  · rw [compare_eq_iff_eq.2 h, Nat.compare_eq_eq]
    exact_mod_cast hleft.trans ((congrArg (· * _) h).trans hright.symm)
  · rw [compare_gt_iff_gt.2 h, Nat.compare_eq_gt]
    exact_mod_cast hleft ▸ hright ▸ mul_lt_mul_of_pos_right h hpos

/-! ## The reals that round to a magnitude -/

/-- The midpoint to the magnitude below. -/
def lower (x : Binary) : ℚ := (x.mantissa - if x.narrowBelow then 1 / 4 else 1 / 2) * 2 ^ x.exponent

/-- The midpoint to the magnitude above. -/
def upper (x : Binary) : ℚ := (x.mantissa + 1 / 2) * 2 ^ x.exponent

/-- The nearest magnitude to `r` is `x`, of two equally near ones the one with an even
    mantissa. -/
def Rounds (x : Binary) (r : ℚ) : Prop :=
  (x.lower < r ∨ x.mantissa % 2 = 0 ∧ r = x.lower) ∧
    (r < x.upper ∨ x.mantissa % 2 = 0 ∧ r = x.upper)

theorem lower_lt (x : Binary) : x.lower < x.value := by
  unfold lower value
  gcongr
  split <;> norm_num

theorem lt_upper (x : Binary) : x.value < x.upper := by
  unfold upper value
  gcongr
  norm_num

theorem rounds_value (x : Binary) : x.Rounds x.value :=
  ⟨.inl x.lower_lt, .inl x.lt_upper⟩

theorem readsBack_iff {x : Binary} (hx : x.mantissa ≠ 0) (d : Decimal) :
    x.readsBack d = true ↔ x.Rounds d.value := by
  have hbelow : ((if x.narrowBelow then 4 * x.mantissa - 1 else 4 * x.mantissa - 2 : Nat) : ℚ) *
      2 ^ (x.exponent - 2) = x.lower := by
    have hpow : (2 : ℚ) ^ x.exponent = 2 ^ (x.exponent - 2) * 4 := by
      rw [zpow_sub₀ (by norm_num)]; norm_num
    unfold lower
    rw [hpow]
    split
    · rw [Nat.cast_sub (by omega)]; push_cast; ring
    · rw [Nat.cast_sub (by omega)]; push_cast; ring
  have habove : ((4 * x.mantissa + 2 : Nat) : ℚ) * 2 ^ (x.exponent - 2) = x.upper := by
    have hpow : (2 : ℚ) ^ x.exponent = 2 ^ (x.exponent - 2) * 4 := by
      rw [zpow_sub₀ (by norm_num)]; norm_num
    unfold upper
    rw [hpow]
    push_cast
    ring
  unfold readsBack Rounds
  rw [compareScaled_eq, compareScaled_eq, hbelow, habove]
  show _ ↔ (_ < d.value ∨ _) ∧ _
  unfold Decimal.value
  simp only [Bool.and_eq_true, Bool.or_eq_true, beq_iff_eq, compare_gt_iff_gt, compare_lt_iff_lt,
    compare_eq_iff_eq]

/-! ## The grid -/

theorem floorScaled_eq (x : Binary) (g : ℤ) : x.floorScaled g = ⌊x.value / 10 ^ g⌋₊ := by
  have h2 := zpow_mul_toNat (b := 2) (by norm_num) x.exponent
  have h10 := zpow_mul_toNat (b := 10) (by norm_num) g
  have hratio : x.value / 10 ^ g =
      ((x.mantissa * 2 ^ x.exponent.toNat * 10 ^ (-g).toNat : Nat) : ℚ) /
        ((2 ^ (-x.exponent).toNat * 10 ^ g.toNat : Nat) : ℚ) := by
    unfold value
    push_cast
    rw [← h2, ← h10]
    field_simp
  rw [hratio, Nat.floor_div_eq_div]
  rfl

/-- A magnitude lies between two points of the grid. -/
theorem floorScaled_spec (x : Binary) (g : ℤ) :
    (x.floorScaled g : ℚ) * 10 ^ g ≤ x.value ∧ x.value < (x.floorScaled g + 1 : ℕ) * 10 ^ g := by
  have hgrid : (0 : ℚ) < 10 ^ g := by positivity
  have hvalue : 0 ≤ x.value / 10 ^ g := by unfold value; positivity
  rw [floorScaled_eq]
  constructor
  · rw [← le_div_iff₀ hgrid]
    exact Nat.floor_le hvalue
  · rw [← div_lt_iff₀ hgrid]
    push_cast
    exact Nat.lt_floor_add_one _

theorem pow_digitCount {n : Nat} (hn : n ≠ 0) :
    10 ^ (Decimal.digitCount n - 1) ≤ n ∧ n < 10 ^ Decimal.digitCount n := by
  have hlength (k : Nat) (hk : 0 < k) : Decimal.digitCount n ≤ k ↔ n < 10 ^ k :=
    Nat.length_toDigits_le_iff (by decide) hk
  have hpos : 0 < Decimal.digitCount n := Nat.length_toDigits_pos
  refine ⟨?_, (hlength _ hpos).1 le_rfl⟩
  by_contra hlt
  rcases Nat.eq_zero_or_pos (Decimal.digitCount n - 1) with h0 | h0
  · rw [h0] at hlt
    omega
  · have := (hlength _ h0).2 (not_le.1 hlt)
    omega

/-- The digits of a magnitude start right below `10 ^ scale`. -/
theorem scale_spec {x : Binary} (h : (10 : ℚ) ^ (-342 : ℤ) ≤ x.value) :
    (10 : ℚ) ^ (x.scale - 1) ≤ x.value ∧ x.value < (10 : ℚ) ^ x.scale := by
  obtain ⟨hle, hlt⟩ := x.floorScaled_spec (-342)
  have hgrid : (0 : ℚ) < 10 ^ (-342 : ℤ) := by positivity
  have hne : x.floorScaled (-342) ≠ 0 := by
    rw [floorScaled_eq]
    have : 1 ≤ ⌊x.value / 10 ^ (-342 : ℤ)⌋₊ := by
      rw [Nat.one_le_floor_iff, le_div_iff₀ hgrid, one_mul]
      exact h
    omega
  obtain ⟨hlow, hhigh⟩ := pow_digitCount hne
  have hpos : 0 < Decimal.digitCount (x.floorScaled (-342)) := Nat.length_toDigits_pos
  unfold scale
  generalize x.floorScaled (-342) = n at *
  generalize Decimal.digitCount n = k at *
  constructor
  · calc (10 : ℚ) ^ ((k : ℤ) - 342 - 1) = ((10 ^ (k - 1) : ℕ) : ℚ) * 10 ^ (-342 : ℤ) := by
          rw [Nat.cast_pow, Nat.cast_ofNat, ← zpow_natCast, ← zpow_add₀ (by norm_num)]
          congr 1
          omega
      _ ≤ n * 10 ^ (-342 : ℤ) := by gcongr
      _ ≤ x.value := hle
  · calc x.value < (n + 1 : ℕ) * 10 ^ (-342 : ℤ) := hlt
      _ ≤ ((10 ^ k : ℕ) : ℚ) * 10 ^ (-342 : ℤ) := by gcongr; omega
      _ = (10 : ℚ) ^ ((k : ℤ) - 342) := by
          rw [Nat.cast_pow, Nat.cast_ofNat, ← zpow_natCast, ← zpow_add₀ (by norm_num)]
          rfl

/-- A point of the grid that is taken is next to the magnitude and reads back. -/
theorem onGrid?_spec {tie : Tie} {x : Binary} {g : ℤ} {d : Decimal} (h : x.onGrid? tie g = some d) :
    x.readsBack d = true ∧ d.exponent = g ∧ d.coefficient ≤ x.floorScaled g + 1 := by
  unfold onGrid? at h
  dsimp only at h
  cases hlow : x.readsBack ⟨x.floorScaled g, g⟩ <;>
    cases hhigh : x.readsBack ⟨x.floorScaled g + 1, g⟩ <;> rw [hlow, hhigh] at h
  · cases h
  · cases h
    exact ⟨hhigh, rfl, le_rfl⟩
  · cases h
    exact ⟨hlow, rfl, Nat.le_succ _⟩
  · dsimp only at h
    split at h
    · cases h
      exact ⟨hlow, rfl, Nat.le_succ _⟩
    · cases h
      exact ⟨hhigh, rfl, le_rfl⟩
    · cases h
      exact ⟨hhigh, rfl, le_rfl⟩
    · cases h
      rcases Nat.mod_two_eq_zero_or_one (x.floorScaled g) with heven | hodd
      · rw [heven]
        exact ⟨hlow, rfl, Nat.le_succ _⟩
      · rw [hodd]
        exact ⟨hhigh, rfl, le_rfl⟩

/-! ## Enough digits -/

theorem two_pow_le (k : Nat) : 2 ^ (60 * k) ≤ 10 ^ (19 * k) := by
  rw [pow_mul, pow_mul]
  exact Nat.pow_le_pow_left (by decide) k

namespace Double

variable {x : Binary}

/-- No magnitude but zero is below the grid that `scale` starts from. -/
theorem value_ge (hx : x.Double) (hne : x.mantissa ≠ 0) : (10 : ℚ) ^ (-342 : ℤ) ≤ x.value := by
  have hone : (1 : ℚ) ≤ x.mantissa := by exact_mod_cast Nat.one_le_iff_ne_zero.2 hne
  have hpow : (2 : ℚ) ^ (60 * 18) ≤ 10 ^ (19 * 18) := by exact_mod_cast two_pow_le 18
  have hexponent := hx.exponent_ge
  calc (10 : ℚ) ^ (-342 : ℤ) = (10 ^ (19 * 18))⁻¹ := by rw [zpow_neg]; rfl
    _ ≤ (2 ^ (60 * 18))⁻¹ := by gcongr
    _ = 2 ^ (-(60 * 18 : ℕ) : ℤ) := by rw [zpow_neg, zpow_natCast]
    _ ≤ 2 ^ x.exponent := zpow_le_zpow_right₀ (by norm_num) (by omega)
    _ ≤ x.mantissa * 2 ^ x.exponent := le_mul_of_one_le_left (by positivity) hone

/-- The reals that round to a magnitude leave no room for a gap of the grid. -/
theorem grid_lt (hx : x.Double) {s : ℚ} (hs : s * 10 ^ 16 ≤ x.value) (hpos : 0 < s) :
    s < x.upper - x.lower := by
  have ht : (0 : ℚ) < 2 ^ x.exponent := by positivity
  have hm : (x.mantissa : ℚ) + 1 ≤ 2 ^ 53 := by exact_mod_cast hx.mantissa_lt
  unfold value at hs
  unfold upper lower
  rw [← sub_mul]
  split
  · next hnarrow =>
    have hm : (x.mantissa : ℚ) = 2 ^ 52 := by exact_mod_cast (hx.narrowBelow.1 hnarrow).1
    rw [hm] at hs ⊢
    nlinarith
  · nlinarith

/-- Of the two neighbours on a grid that is fine enough, one reads back. -/
theorem onGrid?_of_fine (hne : x.mantissa ≠ 0) {g : ℤ} (hg : (10 : ℚ) ^ g < x.upper - x.lower)
    (tie : Tie) : ∃ d, x.onGrid? tie g = some d := by
  obtain ⟨hlow, hhigh⟩ := x.floorScaled_spec g
  have hreads : x.readsBack ⟨x.floorScaled g, g⟩ = true ∨
      x.readsBack ⟨x.floorScaled g + 1, g⟩ = true := by
    rw [readsBack_iff hne, readsBack_iff hne]
    unfold Decimal.value
    by_cases hbelow : x.lower < x.floorScaled g * 10 ^ g
    · exact .inl ⟨.inl hbelow, .inl (hlow.trans_lt (lt_upper x))⟩
    · refine .inr ⟨.inl ((lower_lt x).trans hhigh), .inl ?_⟩
      push_cast
      linarith
  unfold onGrid?
  dsimp only
  cases hlow : x.readsBack ⟨x.floorScaled g, g⟩ <;>
    cases hhigh : x.readsBack ⟨x.floorScaled g + 1, g⟩
  · simp [hlow, hhigh] at hreads
  · exact ⟨_, rfl⟩
  · exact ⟨_, rfl⟩
  · dsimp only
    split <;> exact ⟨_, rfl⟩

/-- Seventeen digits tell all magnitudes apart. -/
theorem exists_onGrid? (hx : x.Double) (hne : x.mantissa ≠ 0) (tie : Tie) :
    ∃ d, x.onGrid? tie (x.scale - 17) = some d := by
  obtain ⟨hscale, -⟩ := scale_spec (hx.value_ge hne)
  refine onGrid?_of_fine hne (hx.grid_lt ?_ (by positivity)) tie
  calc (10 : ℚ) ^ (x.scale - 17) * 10 ^ 16 = 10 ^ (x.scale - 1) := by
        rw [← zpow_natCast, ← zpow_add₀ (by norm_num)]
        congr 1
        omega
    _ ≤ x.value := hscale

end Double

end Binary

/-! ## Trailing zeros -/

namespace Decimal

theorem digitCount_div_ten {n : Nat} (hn : 10 ≤ n) : digitCount n = digitCount (n / 10) + 1 := by
  unfold digitCount
  rw [Nat.toDigits_of_base_le (by decide) hn, List.length_append, List.length_singleton]

/-- What moving zeros into the exponent keeps. -/
structure SameNumber (d d' : Decimal) : Prop where
  value : d'.value = d.value
  leading : d'.leading = d.leading
  coefficient_le : d'.coefficient ≤ d.coefficient
  coefficient_ne : d'.coefficient ≠ 0

theorem strip_spec (n : Nat) {d : Decimal} (hd : d.coefficient ≠ 0) :
    SameNumber d (d.strip n) := by
  induction n generalizing d with
  | zero => exact ⟨rfl, rfl, le_rfl, hd⟩
  | succ n ih =>
    unfold strip
    split
    · next hzero =>
      have hten : d.coefficient = 10 * (d.coefficient / 10) := by omega
      obtain ⟨hvalue, hleading, hle, hne⟩ :=
        ih (d := ⟨d.coefficient / 10, d.exponent + 1⟩) (by show d.coefficient / 10 ≠ 0; omega)
      refine ⟨?_, ?_, hle.trans (Nat.div_le_self _ _), hne⟩
      · rw [hvalue]
        unfold Decimal.value
        rw [zpow_add_one₀ (by norm_num)]
        conv_rhs => rw [hten]
        push_cast
        ring
      · rw [hleading]
        unfold Decimal.leading
        rw [digitCount_div_ten (n := d.coefficient) (by omega)]
        push_cast
        ring
    · exact ⟨rfl, rfl, le_rfl, hd⟩

end Decimal

namespace Binary

variable {x : Binary} {tie : Tie}

theorem lower_pos (hne : x.mantissa ≠ 0) : 0 < x.lower := by
  have hone : (1 : ℚ) ≤ x.mantissa := by exact_mod_cast Nat.one_le_iff_ne_zero.2 hne
  unfold lower
  refine mul_pos ?_ (by positivity)
  split <;> linarith

/-- The decimal that `shortest` strips: it has at most `n` digits, and reads back. -/
theorem exists_found (hx : x.Double) (hne : x.mantissa ≠ 0) (tie : Tie) :
    ∃ n d, 1 ≤ n ∧ n ≤ 17 ∧ x.onGrid? tie (x.scale - (n : ℕ)) = some d ∧
      x.shortest tie = d.strip 1100 := by
  obtain ⟨d₀, hd₀⟩ := hx.exists_onGrid? hne tie
  unfold shortest
  rw [if_neg hne]
  cases hfound : (List.range 17).findSome? fun n => x.onGrid? tie (x.scale - (n + 1 : Nat)) with
  | none =>
    have := List.findSome?_eq_none_iff.1 hfound 16 (by decide)
    rw [show x.scale - ((16 + 1 : Nat) : ℤ) = x.scale - 17 from rfl, hd₀] at this
    cases this
  | some d =>
    obtain ⟨n, hn, hd⟩ := List.exists_of_findSome?_eq_some hfound
    exact ⟨n + 1, d, by omega, by have := List.mem_range.1 hn; omega, hd, rfl⟩

theorem floorScaled_lt (hx : x.Double) (hne : x.mantissa ≠ 0) (n : ℕ) :
    x.floorScaled (x.scale - n) < 10 ^ n := by
  obtain ⟨-, hscale⟩ := scale_spec (hx.value_ge hne)
  have hgrid : (0 : ℚ) < 10 ^ (x.scale - n) := by positivity
  have hpow : (10 : ℚ) ^ x.scale = 10 ^ n * 10 ^ (x.scale - n) := by
    rw [← zpow_natCast, ← zpow_add₀ (by norm_num)]
    congr 1
    omega
  have hlt := (x.floorScaled_spec (x.scale - n)).1.trans_lt hscale
  rw [hpow] at hlt
  exact_mod_cast lt_of_mul_lt_mul_right hlt hgrid.le

theorem scale_bounds (hx : x.Double) (hne : x.mantissa ≠ 0) :
    -342 < x.scale ∧ x.scale ≤ 342 := by
  constructor
  · have hpos : 0 < Decimal.digitCount (x.floorScaled (-342)) := Nat.length_toDigits_pos
    unfold scale
    omega
  · obtain ⟨hscale, -⟩ := scale_spec (hx.value_ge hne)
    have hpow : (2 : ℚ) ^ (60 * 18) ≤ 10 ^ (19 * 18) := by exact_mod_cast two_pow_le 18
    have hexponent := hx.exponent_le
    have hm : (x.mantissa : ℚ) < 2 ^ 53 := by exact_mod_cast hx.mantissa_lt
    have hlt : (10 : ℚ) ^ (x.scale - 1) < 10 ^ (342 : ℤ) := by
      calc (10 : ℚ) ^ (x.scale - 1) ≤ x.mantissa * 2 ^ x.exponent := hscale
        _ < 2 ^ 53 * 2 ^ x.exponent := by gcongr
        _ = 2 ^ (53 + x.exponent) := by rw [zpow_add₀ (by norm_num)]; rfl
        _ ≤ 2 ^ ((60 * 18 : ℕ) : ℤ) := zpow_le_zpow_right₀ (by norm_num) (by omega)
        _ = 2 ^ (60 * 18) := zpow_natCast 2 _
        _ ≤ 10 ^ (19 * 18) := hpow
        _ = 10 ^ (342 : ℤ) := (zpow_natCast (10 : ℚ) (19 * 18)).symm
    have := (zpow_lt_zpow_iff_right₀ (by norm_num)).1 hlt
    omega

/-- What is known of the shortest decimal of a magnitude other than zero. -/
structure Shortest (x : Binary) (d : Decimal) : Prop where
  rounds : x.Rounds d.value
  coefficient_ne : d.coefficient ≠ 0
  coefficient_le : d.coefficient ≤ 10 ^ 17
  leading : -400 ≤ d.leading ∧ d.leading ≤ 400

/-- **Shortest decimals**: they read back, and 17 digits are enough for them. -/
theorem shortest_spec (hx : x.Double) (hne : x.mantissa ≠ 0) (tie : Tie) :
    Shortest x (x.shortest tie) := by
  obtain ⟨n, d, hone, hn, hgrid, hshortest⟩ := exists_found hx hne tie
  obtain ⟨hreads, hexponent, hle⟩ := onGrid?_spec hgrid
  have hfloor := floorScaled_lt hx hne n
  have hrounds := (readsBack_iff hne d).1 hreads
  have hd : d.coefficient ≠ 0 := by
    intro hzero
    have hvalue : d.value = 0 := by unfold Decimal.value; rw [hzero]; simp
    rw [hvalue] at hrounds
    rcases hrounds.1 with h | ⟨-, h⟩ <;> linarith [lower_pos hne]
  obtain ⟨hvalue, hleading, hstrip, hcoefficient⟩ := Decimal.strip_spec 1100 hd
  rw [hshortest]
  refine ⟨hvalue ▸ hrounds, hcoefficient, ?_, ?_⟩
  · have : 10 ^ n ≤ 10 ^ 17 := Nat.pow_le_pow_right (by decide) hn
    omega
  · obtain ⟨hlow, hhigh⟩ := scale_bounds hx hne
    have hdigits : Decimal.digitCount d.coefficient ≤ n + 1 :=
      (Nat.length_toDigits_le_iff (by decide) (by omega)).2 (by rw [pow_succ]; omega)
    rw [hleading]
    unfold Decimal.leading
    omega

end Binary

end ScheduleSearch

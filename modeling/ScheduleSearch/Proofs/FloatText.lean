/-
  Finite floats written as JSON are numerals of their shortest decimals.

  * `exists_numeral`: a decimal is written as a numeral, with its point after, inside or
    before the digits, or with an exponent;
  * `Decimal.written` is the decimal that the numeral spells: the same number, where a whole
    number has one zero after the point;
  * `reread?` is the float that is read for a written one;
  * **`writeFloat_spec`**: a finite float is written as a number that is read to its end.
-/
import ScheduleSearch.Json.Writer
import ScheduleSearch.Proofs.FloatBits
import ScheduleSearch.Proofs.JsonNumber

namespace ScheduleSearch

/-! ## Digits -/

theorem head_toDigits {n : Nat} (hn : n ≠ 0) : ∃ c cs, Nat.toDigits 10 n = c :: cs ∧ c ≠ '0' := by
  induction n using Nat.strongRecOn with
  | _ n ih =>
    rcases Nat.lt_or_ge n 10 with hlt | hge
    · refine ⟨n.digitChar, [], Nat.toDigits_of_lt_base hlt, ?_⟩
      interval_cases n <;> first | exact absurd rfl hn | decide
    · obtain ⟨c, cs, hcs, hc⟩ := ih (n / 10) (by omega) (by omega)
      rw [Nat.toDigits_of_base_le (by decide) hge, hcs]
      exact ⟨c, _, rfl, hc⟩

theorem isDigit_toDigits (n : Nat) : ∀ c ∈ Nat.toDigits 10 n, c.isDigit = true :=
  fun _ hc => Nat.isDigit_of_mem_toDigits (by decide) (by decide) hc

theorem isDigit_zeros (n : Nat) : ∀ c ∈ List.replicate n '0', c.isDigit = true := by
  intro c hc
  rw [List.eq_of_mem_replicate hc]
  rfl

/-! ## The numeral of a decimal -/

namespace Json.Numeral

/-- The numeral spells a decimal, and its exponent fits. -/
structure Spells (n : Numeral) (d : Decimal) : Prop where
  wellFormed : n.WellFormed
  decimal : n.text.decimal = d
  power : n.text.power.natAbs < 0x80000000

theorem decimal_text (n : Numeral) : n.text.decimal =
    ⟨Nat.ofDigitChars 10 (n.whole ++ n.fraction) 0, n.text.power - n.fraction.length⟩ := by
  rw [← digitsValue_digitValues]
  simp [NumberText.decimal, text, digitValues]

theorem power_text_none (negative : Bool) (whole fraction : List Char) :
    (Numeral.mk negative whole fraction none).text.power = 0 :=
  rfl

theorem power_text_some (negative : Bool) (whole fraction : List Char) (e : Int) :
    (Numeral.mk negative whole fraction
      (some (decide (e < 0), Nat.toDigits 10 e.natAbs))).text.power = e := by
  have hvalue : digitsValue 0 (digitValues (Nat.toDigits 10 e.natAbs)) = e.natAbs := by
    rw [digitsValue_digitValues, Nat.ofDigitChars_toDigits (by decide) (by decide)]
  by_cases he : e < 0
  · simp only [text, NumberText.power, Option.map_some, decide_eq_true he, hvalue]
    omega
  · simp only [text, NumberText.power, Option.map_some, decide_eq_false he, hvalue]
    omega

variable {c : Nat} (negative : Bool)

/-- A whole number: all digits stand before the point. -/
theorem spells_whole {e : Nat} (he : c = 0 → e = 0) :
    Spells ⟨negative, Nat.toDigits 10 c ++ List.replicate e '0', ['0'], none⟩
      ⟨c * 10 ^ (e + 1), -1⟩ where
  wellFormed :=
    { whole := by
        intro a ha
        rcases List.mem_append.1 ha with ha | ha
        · exact isDigit_toDigits c a ha
        · exact isDigit_zeros e a ha
      lead := by
        rcases Nat.eq_zero_or_pos c with rfl | hc
        · rw [he rfl]
          exact .inl rfl
        · obtain ⟨a, cs, hcs, ha⟩ := head_toDigits (Nat.ne_of_gt hc)
          exact .inr ⟨a, _, by rw [hcs]; rfl, ha⟩
      fraction := isDigit_zeros 1
      exponent := by simp }
  decimal := by
    have hvalue : Nat.ofDigitChars 10 ((Nat.toDigits 10 c ++ List.replicate e '0') ++ ['0']) 0 =
        c * 10 ^ (e + 1) := by
      rw [List.append_assoc, show ['0'] = List.replicate 1 '0' from rfl,
        List.replicate_append_replicate, Nat.ofDigitChars_append,
        Nat.ofDigitChars_toDigits (by decide) (by decide), Nat.ofDigitChars_replicate_zero,
        Nat.mul_comm]
    rw [decimal_text, power_text_none, hvalue]
    rfl
  power := by
    rw [power_text_none]
    decide

/-- The point stands between the digits. -/
theorem spells_inside {places : Nat} (hc : c ≠ 0)
    (hplaces : places < (Nat.toDigits 10 c).length) :
    Spells ⟨negative, (Nat.toDigits 10 c).take ((Nat.toDigits 10 c).length - places),
      (Nat.toDigits 10 c).drop ((Nat.toDigits 10 c).length - places), none⟩
      ⟨c, -(places : Int)⟩ where
  wellFormed :=
    { whole := fun a ha => isDigit_toDigits c a (List.mem_of_mem_take ha)
      lead := by
        obtain ⟨a, cs, hcs, ha⟩ := head_toDigits hc
        refine .inr ⟨a, cs.take ((Nat.toDigits 10 c).length - places - 1), ?_, ha⟩
        obtain ⟨k, hk⟩ : ∃ k, (Nat.toDigits 10 c).length - places = k + 1 :=
          ⟨(Nat.toDigits 10 c).length - places - 1, by omega⟩
        rw [hk, hcs]
        rfl
      fraction := fun a ha => isDigit_toDigits c a (List.mem_of_mem_drop ha)
      exponent := by simp }
  decimal := by
    rw [decimal_text, power_text_none, List.take_append_drop,
      Nat.ofDigitChars_toDigits (by decide) (by decide), List.length_drop]
    congr 1
    omega
  power := by
    rw [power_text_none]
    decide

/-- The digits stand behind the point, after zeros. -/
theorem spells_below {places : Nat} (hplaces : (Nat.toDigits 10 c).length ≤ places) :
    Spells ⟨negative, ['0'], List.replicate (places - (Nat.toDigits 10 c).length) '0' ++
      Nat.toDigits 10 c, none⟩ ⟨c, -(places : Int)⟩ where
  wellFormed :=
    { whole := isDigit_zeros 1
      lead := .inl rfl
      fraction := by
        intro a ha
        rcases List.mem_append.1 ha with ha | ha
        · exact isDigit_zeros _ a ha
        · exact isDigit_toDigits c a ha
      exponent := by simp }
  decimal := by
    have hvalue (k : Nat) :
        Nat.ofDigitChars 10 (['0'] ++ (List.replicate k '0' ++ Nat.toDigits 10 c)) 0 = c := by
      rw [← List.append_assoc, show ['0'] = List.replicate 1 '0' from rfl,
        List.replicate_append_replicate, Nat.ofDigitChars_append,
        Nat.ofDigitChars_replicate_zero, Nat.mul_zero,
        Nat.ofDigitChars_toDigits (by decide) (by decide)]
    rw [decimal_text, power_text_none, hvalue, List.length_append, List.length_replicate]
    congr 1
    omega
  power := by
    rw [power_text_none]
    decide

/-- One digit stands before the point, and an exponent after the others. -/
theorem spells_scientific {d : Decimal} (hd : d.coefficient ≠ 0)
    (hleading : -400 ≤ d.leading ∧ d.leading ≤ 400) :
    Spells ⟨negative, (Nat.toDigits 10 d.coefficient).take 1,
      (Nat.toDigits 10 d.coefficient).drop 1,
      some (decide (d.leading < 0), Nat.toDigits 10 d.leading.natAbs)⟩ d where
  wellFormed :=
    { whole := fun a ha => isDigit_toDigits _ a (List.mem_of_mem_take ha)
      lead := by
        obtain ⟨a, cs, hcs, ha⟩ := head_toDigits hd
        exact .inr ⟨a, [], by rw [hcs]; rfl, ha⟩
      fraction := fun a ha => isDigit_toDigits _ a (List.mem_of_mem_drop ha)
      exponent := by
        rintro p ⟨⟩
        exact ⟨Nat.toDigits_ne_nil, isDigit_toDigits _⟩ }
  decimal := by
    rw [decimal_text, power_text_some, List.take_append_drop,
      Nat.ofDigitChars_toDigits (by decide) (by decide), List.length_drop]
    have hpos : 0 < (Nat.toDigits 10 d.coefficient).length := Nat.length_toDigits_pos
    unfold Decimal.leading Decimal.digitCount
    congr 1
    omega
  power := by
    rw [power_text_some]
    omega

end Json.Numeral

/-! ## The layout -/

namespace Decimal

/-- Without an exponent. -/
def IsPositional (d : Decimal) : Prop :=
  d.coefficient = 0 ∨ -5 ≤ d.leading ∧ d.leading < 16

instance (d : Decimal) : Decidable d.IsPositional :=
  inferInstanceAs (Decidable (_ ∨ _ ∧ _))

/-- The decimal that is written: a whole number has one zero after the point. -/
def written (d : Decimal) : Decimal :=
  if d.IsPositional ∧ 0 ≤ d.exponent then ⟨d.coefficient * 10 ^ (d.exponent.toNat + 1), -1⟩
  else d

/-- What a decimal is like that is written. -/
structure Writable (d : Decimal) : Prop where
  exponent_zero : d.coefficient = 0 → d.exponent = 0
  coefficient_le : d.coefficient ≤ 10 ^ 17
  leading : -400 ≤ d.leading ∧ d.leading ≤ 400

end Decimal

open Json Decimal

theorem magnitude_eq (d : Decimal) : Layout.json.magnitude d =
    if d.IsPositional then Layout.json.positional d else Layout.json.scientific d :=
  if_congr (by simp [IsPositional, Layout.json]) rfl rfl

theorem toList_zeros (n : Nat) : (Layout.zeros n).toList = List.replicate n '0' := by
  simp [Layout.zeros]

/-- Whole numbers, and numbers with a point inside or before the digits. -/
theorem toList_positional (c places : Nat) (hplaces : 0 < places) :
    (Layout.json.positional ⟨c, -(places : Int)⟩).toList =
      if places < (Nat.toDigits 10 c).length then
        (Nat.toDigits 10 c).take ((Nat.toDigits 10 c).length - places) ++
          '.' :: (Nat.toDigits 10 c).drop ((Nat.toDigits 10 c).length - places)
      else '0' :: '.' :: (List.replicate (places - (Nat.toDigits 10 c).length) '0' ++
        Nat.toDigits 10 c) := by
  have hnegative : ¬(0 : Int) ≤ -(places : Int) := by omega
  unfold Layout.positional
  simp only [if_neg hnegative, Int.neg_neg, Int.toNat_natCast, Nat.toList_repr]
  split
  · simp
  · simp [toList_zeros]

theorem toList_scientific {d : Decimal} (hd : d.coefficient ≠ 0) :
    (Layout.json.scientific d).toList = (Nat.toDigits 10 d.coefficient).take 1 ++
      ((if (Nat.toDigits 10 d.coefficient).drop 1 = [] then []
        else '.' :: (Nat.toDigits 10 d.coefficient).drop 1) ++
      'e' :: (if decide (d.leading < 0) then '-' else '+') ::
        Nat.toDigits 10 d.leading.natAbs) := by
  obtain ⟨c, cs, hcs, -⟩ := head_toDigits hd
  have hmark :
      (if d.leading < 0 then "e-" else if Layout.json.exponentPlus then "e+" else "e").toList =
      ['e', if decide (d.leading < 0) then '-' else '+'] := by
    by_cases h : d.leading < 0 <;> simp [h, Layout.json]
  unfold Layout.scientific
  simp only [Nat.toList_repr, hcs]
  rw [String.toList_append, String.toList_append, hmark, Nat.toList_repr]
  cases cs <;> simp

/-- A magnitude is written as a numeral of the written decimal. -/
theorem exists_numeral {d : Decimal} (hd : d.Writable) (negative : Bool) : ∃ n : Numeral,
    n.negative = negative ∧ n.Spells d.written ∧
    ((if negative then "-" else "") ++ Layout.json.magnitude d).toList = n.chars := by
  have hsign : (if negative then "-" else "").toList = if negative then ['-'] else [] := by
    cases negative <;> rfl
  rw [String.toList_append, hsign, magnitude_eq]
  unfold written
  by_cases hpositional : d.IsPositional
  · rw [if_pos hpositional]
    by_cases hwhole : 0 ≤ d.exponent
    · rw [if_pos ⟨hpositional, hwhole⟩]
      refine ⟨_, rfl, Numeral.spells_whole negative (e := d.exponent.toNat) ?_, ?_⟩
      · intro h
        rw [hd.exponent_zero h]
        rfl
      · simp [Numeral.chars, Numeral.tail, Numeral.scale, Layout.positional, hwhole, toList_zeros,
          Layout.json]
    · rw [if_neg fun h => hwhole h.2]
      have hne : d.coefficient ≠ 0 := fun h => hwhole (le_of_eq (hd.exponent_zero h).symm)
      obtain ⟨c, e⟩ := d
      obtain ⟨places, rfl⟩ : ∃ places : Nat, e = -(places : Int) :=
        ⟨(-e).toNat, by change ¬0 ≤ e at hwhole; omega⟩
      rw [toList_positional c places (by change ¬0 ≤ -(places : Int) at hwhole; omega)]
      by_cases hinside : places < (Nat.toDigits 10 c).length
      · refine ⟨_, rfl, Numeral.spells_inside negative hne hinside, ?_⟩
        have hdrop : (Nat.toDigits 10 c).drop ((Nat.toDigits 10 c).length - places) ≠ [] := by
          rw [Ne, List.drop_eq_nil_iff]
          change ¬0 ≤ -(places : Int) at hwhole
          omega
        rw [if_pos hinside]
        simp only [Numeral.chars, Numeral.tail, Numeral.scale, if_neg hdrop, List.append_nil]
      · refine ⟨_, rfl, Numeral.spells_below negative (not_lt.1 hinside), ?_⟩
        rw [if_neg hinside]
        simp [Numeral.chars, Numeral.tail, Numeral.scale]
  · rw [if_neg hpositional, if_neg fun h => hpositional h.1]
    have hne : d.coefficient ≠ 0 := fun h => hpositional (.inl h)
    refine ⟨_, rfl, Numeral.spells_scientific negative hne hd.leading, ?_⟩
    rw [toList_scientific hne]
    rfl

/-! ## Written floats -/

namespace Decimal

/-- The written decimal is the same number, and its digits still fit. -/
structure Fits (d d' : Decimal) : Prop where
  value : d'.value = d.value
  coefficient_le : d'.coefficient ≤ 10 ^ 17
  exponent_ge : -616 ≤ d'.exponent
  coefficient_ne : d.coefficient ≠ 0 → d'.coefficient ≠ 0

theorem Writable.fits {d : Decimal} (hd : d.Writable) : Fits d d.written := by
  have hbits {n : ℕ} (hn : n ≠ 0) := Binary.pow_digitCount hn
  have hleading : d.leading = digitCount d.coefficient + d.exponent - 1 := rfl
  unfold written
  split
  · next h =>
    obtain ⟨hpositional, hexponent⟩ := h
    obtain ⟨k, hk⟩ : ∃ k : ℕ, d.exponent = k := ⟨d.exponent.toNat, by omega⟩
    rw [hk, Int.toNat_natCast]
    refine ⟨?_, ?_, by norm_num, fun hne => by positivity⟩
    · unfold value
      rw [hk]
      push_cast
      rw [zpow_natCast, zpow_neg_one, pow_succ]
      field_simp
    · by_cases hne : d.coefficient = 0
      · simp [hne]
      · have hsmall : digitCount d.coefficient + k ≤ 16 := by
          have := hpositional.resolve_left hne
          omega
        calc d.coefficient * 10 ^ (k + 1)
            ≤ 10 ^ digitCount d.coefficient * 10 ^ (k + 1) :=
              Nat.mul_le_mul_right _ (hbits hne).2.le
          _ = 10 ^ (digitCount d.coefficient + (k + 1)) := (pow_add _ _ _).symm
          _ ≤ 10 ^ 17 := Nat.pow_le_pow_right (by decide) (by omega)
  · refine ⟨rfl, hd.coefficient_le, ?_, id⟩
    by_cases hne : d.coefficient = 0
    · rw [hd.exponent_zero hne]
      decide
    · have hcount : digitCount d.coefficient ≤ 18 := by
        by_contra hlt
        have := Nat.pow_le_pow_right (by decide : 0 < 10)
          (by omega : 18 ≤ digitCount d.coefficient - 1)
        have := (hbits hne).1
        have := hd.coefficient_le
        omega
      have := hd.leading.1
      omega

end Decimal

theorem writable_shortest {x : Binary} (hx : x.Double) (tie : Tie) :
    (x.shortest tie).Writable := by
  by_cases hne : x.mantissa = 0
  · have hzero : x.shortest tie = ⟨0, 0⟩ := if_pos hne
    rw [hzero]
    exact ⟨fun _ => rfl, by decide, by decide, by decide⟩
  · have h := Binary.shortest_spec hx hne tie
    exact ⟨fun hzero => absurd hzero h.coefficient_ne, h.coefficient_le, h.leading⟩

/-- The decimal that a magnitude is written as. -/
def Binary.written (x : Binary) : Decimal := (x.shortest .toEven).written

/-- The float that is read for `x`: its digits as a float, times or divided by a power of
    ten. -/
def reread? (x : Float) : Option Float :=
  let d := (Binary.ofFloat x).written
  (NumberText.scaled? 4 d.coefficient.toUInt64.toFloat d.exponent).map
    fun y => if signBit x then -y else y

/-- **Floats**: a finite float is written as a number that is read to its end. -/
theorem writeFloat_spec {x : Float} (hx : x.isFinite) : ∃ n : NumberText,
    n.float? = reread? x ∧
      ∀ rest, Delimited rest → token? (utf8 (writeFloat x) ++ rest) = some (.number n, rest) := by
  have hwritable := writable_shortest (double_ofFloat hx) .toEven
  obtain ⟨n, hnegative, hspells, hchars⟩ := exists_numeral hwritable (signBit x)
  have htext : (writeFloat x).toList = n.chars := by
    unfold writeFloat Layout.render
    rw [if_pos hx, if_pos hx]
    exact hchars
  refine ⟨n.text, ?_, fun rest hrest => ?_⟩
  · have hfits := hwritable.fits
    have hmagnitude := NumberText.magnitude?_eq (n := n.text)
      (by rw [hspells.decimal]; have := hfits.coefficient_le; omega) hspells.power
    unfold NumberText.float? reread?
    rw [hmagnitude, hspells.decimal]
    simp only [Numeral.text, hnegative]
    rfl
  · rw [utf8_ascii (by rw [htext]; exact hspells.wellFormed.ascii), htext]
    exact Numeral.token?_chars hspells.wellFormed hrest

end ScheduleSearch

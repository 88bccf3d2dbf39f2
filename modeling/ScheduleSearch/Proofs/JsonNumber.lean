/-
  Numbers that are written as JSON are read digit by digit.

  * `NumberText.decimal` is the number that a JSON number spells, exactly;
  * the reader takes all digits that fit into 64 bits, so that a number with fewer is
    scaled once and rounded by that alone (`NumberText.magnitude?_eq`);
  * `Numeral` is a number as characters, with or without a fraction and an exponent;
  * **`number?_chars`**: a numeral before a comma or a bracket is read to its end.
-/
import Mathlib.Data.List.Basic
import ScheduleSearch.Json.Number
import ScheduleSearch.Proofs.JsonText

namespace ScheduleSearch.Json

/-- The number that digits spell after the number `m`. -/
def digitsValue (m : Nat) (ds : List Nat) : Nat :=
  ds.foldl (fun m d => m * 10 + d) m

/-- The digits of characters. -/
def digitValues (cs : List Char) : List Nat :=
  cs.map fun c => c.toNat - 48

theorem digitsValue_digitValues (m : Nat) (cs : List Char) :
    digitsValue m (digitValues cs) = Nat.ofDigitChars 10 cs m := by
  induction cs generalizing m with
  | nil => simp [digitsValue, digitValues]
  | cons c cs ih =>
    rw [Nat.ofDigitChars_cons, ← ih, Nat.mul_comm]
    rfl

theorem le_digitsValue (m : Nat) (ds : List Nat) : m ≤ digitsValue m ds := by
  induction ds generalizing m with
  | nil => exact Nat.le_refl m
  | cons d ds ih =>
    have := ih (m * 10 + d)
    simp only [digitsValue, List.foldl_cons] at this ⊢
    omega

/-! ## The number of a text -/

namespace NumberText

/-- The exponent that is written. -/
def power (n : NumberText) : Int :=
  match n.exponent with
  | none => 0
  | some (true, ds) => -(digitsValue 0 ds : Int)
  | some (false, ds) => digitsValue 0 ds

/-- The magnitude that a number spells. -/
def decimal (n : NumberText) : Decimal :=
  ⟨digitsValue 0 (n.whole ++ n.fraction), n.power - n.fraction.length⟩

theorem significand_eq {m : Nat} {ds : List Nat} (h : digitsValue m ds < 0x10000000000000000) :
    significand m ds = (digitsValue m ds, []) := by
  induction ds generalizing m with
  | nil => rfl
  | cons d ds ih =>
    have hle := le_digitsValue (m * 10 + d) ds
    have hds : digitsValue (m * 10 + d) ds < 0x10000000000000000 := h
    rw [significand, if_pos (Nat.lt_of_le_of_lt hle hds), ih hds]
    rfl

/-- A number whose digits and exponent fit is read by scaling its digits. -/
theorem magnitude?_eq {n : NumberText} (hfits : n.decimal.coefficient < 0x10000000000000000)
    (hpower : n.power.natAbs < 0x80000000) :
    n.magnitude? = scaled? 4 n.decimal.coefficient.toUInt64.toFloat n.decimal.exponent := by
  have happend : n.decimal.coefficient = digitsValue (digitsValue 0 n.whole) n.fraction :=
    List.foldl_append
  have hwhole : significand 0 n.whole = (digitsValue 0 n.whole, []) :=
    significand_eq (Nat.lt_of_le_of_lt (le_digitsValue _ n.fraction) (happend ▸ hfits))
  have hall : significand (digitsValue 0 n.whole) n.fraction = (n.decimal.coefficient, []) := by
    rw [significand_eq (happend ▸ hfits), happend]
  unfold magnitude?
  simp only [hwhole, hall, List.length_nil]
  obtain ⟨negative, whole, fraction, exponent⟩ := n
  rcases exponent with _ | ⟨negativePower, ds⟩
  · simp [decimal, power]
  · have hvalue : exponentValue? ds = some (digitsValue 0 ds) := by
      have : digitsValue 0 ds < 0x80000000 := by
        cases negativePower <;> simpa [power] using hpower
      exact if_pos this
    simp only [hvalue, decimal, power]
    congr 1
    cases negativePower <;> simp <;> omega

end NumberText

/-! ## Digits -/

theorem toNat_digit {c : Char} (h : c.isDigit) : 48 ≤ c.toNat ∧ c.toNat ≤ 57 := by
  simpa [Char.isDigit, UInt32.le_iff_toNat_le] using h

theorem toNat_byteOf_digit {c : Char} (h : c.isDigit) : (byteOf c).toNat = c.toNat := by
  have := toNat_digit h
  rw [byteOf, Nat.toUInt8, UInt8.toNat_ofNat', Nat.mod_eq_of_lt (by omega)]

theorem digit?_byteOf {c : Char} (h : c.isDigit) : digit? (byteOf c) = some (c.toNat - 48) := by
  have hbyte := toNat_byteOf_digit h
  have hdigit : byteOf '0' ≤ byteOf c ∧ byteOf c ≤ byteOf '9' := by
    rw [UInt8.le_iff_toNat_le, UInt8.le_iff_toNat_le, hbyte]
    exact toNat_digit h
  rw [digit?, if_pos hdigit, hbyte]

/-- No digit goes on before these bytes. -/
def NoDigit (rest : List UInt8) : Prop :=
  ∀ b ∈ rest.head?, digit? b = none

theorem digits_append {cs : List Char} (h : ∀ c ∈ cs, c.isDigit) {rest : List UInt8}
    (hrest : NoDigit rest) : digits (cs.map byteOf ++ rest) = (digitValues cs, rest) := by
  induction cs with
  | nil =>
    cases rest with
    | nil => rfl
    | cons b rest => simp [digits, hrest b rfl, digitValues]
  | cons c cs ih =>
    obtain ⟨hc, hcs⟩ := List.forall_mem_cons.1 h
    simp [digits, digit?_byteOf hc, ih hcs, digitValues]

/-- The digits of a number have no zero before them. -/
def NoLeadingZero (cs : List Char) : Prop :=
  cs = ['0'] ∨ ∃ c rest, cs = c :: rest ∧ c ≠ '0'

theorem whole?_append {cs : List Char} (h : ∀ c ∈ cs, c.isDigit) (hlead : NoLeadingZero cs)
    {rest : List UInt8} (hrest : NoDigit rest) :
    whole? (cs.map byteOf ++ rest) = some (digitValues cs, rest) := by
  have hdigits := digits_append h hrest
  rcases hlead with rfl | ⟨c, cs, rfl, hc⟩
  · rw [whole?, hdigits]
    rfl
  · have hdigit := toNat_digit (h c List.mem_cons_self)
    have hne : c.toNat ≠ 48 := fun h => hc (Char.toNat_inj.1 h)
    rw [whole?, hdigits]
    obtain ⟨k, hk⟩ : ∃ k, c.toNat - 48 = k + 1 := ⟨c.toNat - 49, by omega⟩
    simp only [digitValues, List.map_cons, hk]

theorem fraction?_append {cs : List Char} (h : ∀ c ∈ cs, c.isDigit) (hne : cs ≠ [])
    {rest : List UInt8} (hrest : NoDigit rest) :
    fraction? (byteOf '.' :: (cs.map byteOf ++ rest)) = some (digitValues cs, rest) := by
  rw [fraction?, if_pos rfl, digits_append h hrest]
  simp [digitValues, hne]

theorem exponent?_append {cs : List Char} (h : ∀ c ∈ cs, c.isDigit) (hne : cs ≠ [])
    (negative : Bool) {rest : List UInt8} (hrest : NoDigit rest) :
    exponent? (byteOf 'e' :: byteOf (if negative then '-' else '+') :: (cs.map byteOf ++ rest)) =
      some (some (negative, digitValues cs), rest) := by
  cases negative <;>
    simp [exponent?, digits_append h hrest, digitValues, hne, byteOf]

/-! ## Numerals -/

/-- A number as it is written: the digits before and after the point, and the sign and the
    digits of an exponent. -/
structure Numeral where
  negative : Bool
  whole : List Char
  fraction : List Char
  exponent : Option (Bool × List Char)

namespace Numeral

/-- The characters from the mark of the exponent on. -/
def scale (n : Numeral) : List Char :=
  match n.exponent with
  | none => []
  | some (negative, cs) => 'e' :: (if negative then '-' else '+') :: cs

/-- The characters after the digits before the point. -/
def tail (n : Numeral) : List Char :=
  (if n.fraction = [] then [] else '.' :: n.fraction) ++ n.scale

def chars (n : Numeral) : List Char :=
  (if n.negative then ['-'] else []) ++ (n.whole ++ n.tail)

/-- What a reader makes of the numeral. -/
def text (n : Numeral) : NumberText where
  negative := n.negative
  whole := digitValues n.whole
  fraction := digitValues n.fraction
  exponent := n.exponent.map fun p => (p.1, digitValues p.2)

/-- A numeral has digits where digits are due. -/
structure WellFormed (n : Numeral) : Prop where
  whole : ∀ c ∈ n.whole, c.isDigit
  lead : NoLeadingZero n.whole
  fraction : ∀ c ∈ n.fraction, c.isDigit
  exponent : ∀ p ∈ n.exponent, p.2 ≠ [] ∧ ∀ c ∈ p.2, c.isDigit

end Numeral

theorem Numeral.WellFormed.whole_eq_cons {n : Numeral} (h : n.WellFormed) :
    ∃ c cs, n.whole = c :: cs := by
  rcases h.lead with hzero | ⟨c, cs, hcs, -⟩
  · exact ⟨_, _, hzero⟩
  · exact ⟨_, _, hcs⟩

/-- A numeral has ASCII characters only. -/
theorem Numeral.WellFormed.ascii {n : Numeral} (h : n.WellFormed) :
    ∀ c ∈ n.chars, c.toNat < 0x80 := by
  have hdigit {c : Char} (hc : c.isDigit) : c.toNat < 0x80 := by
    have := toNat_digit hc
    omega
  intro c hc
  unfold chars tail scale at hc
  simp only [List.mem_append] at hc
  rcases hc with hsign | hwhole | hfraction | hscale
  · split at hsign
    · cases List.mem_singleton.1 hsign
      decide
    · cases hsign
  · exact hdigit (h.whole c hwhole)
  · split at hfraction
    · cases hfraction
    · rcases List.mem_cons.1 hfraction with rfl | hmem
      · decide
      · exact hdigit (h.fraction c hmem)
  · split at hscale
    · cases hscale
    · next p hexponent =>
      rcases List.mem_cons.1 hscale with rfl | hmem
      · decide
      · rcases List.mem_cons.1 hmem with rfl | hmem
        · split <;> decide
        · exact hdigit ((h.exponent _ hexponent).2 c hmem)

/-- What stands after a number in an array. -/
def Delimited (rest : List UInt8) : Prop :=
  ∃ b tail, rest = b :: tail ∧ (b = byteOf ',' ∨ b = byteOf ']')

theorem Delimited.noDigit {rest : List UInt8} (h : Delimited rest) : NoDigit rest := by
  obtain ⟨b, tail, rfl, rfl | rfl⟩ := h <;> simp [NoDigit, digit?, byteOf]

theorem Delimited.fraction? {rest : List UInt8} (h : Delimited rest) :
    Json.fraction? rest = some ([], rest) := by
  obtain ⟨b, tail, rfl, rfl | rfl⟩ := h <;> simp [Json.fraction?, byteOf]

theorem Delimited.exponent? {rest : List UInt8} (h : Delimited rest) :
    Json.exponent? rest = some (none, rest) := by
  obtain ⟨b, tail, rfl, rfl | rfl⟩ := h <;> simp [Json.exponent?, byteOf]

namespace Numeral

variable {n : Numeral} {rest : List UInt8}

theorem noDigit_scale (hrest : Delimited rest) : NoDigit (n.scale.map byteOf ++ rest) := by
  unfold scale
  split
  · exact hrest.noDigit
  · rintro b ⟨⟩
    decide

theorem noDigit_tail (hrest : Delimited rest) : NoDigit (n.tail.map byteOf ++ rest) := by
  unfold tail
  split
  · exact noDigit_scale hrest
  · rintro b ⟨⟩
    decide

theorem exponent?_scale (h : n.WellFormed) (hrest : Delimited rest) :
    Json.exponent? (n.scale.map byteOf ++ rest) = some (n.text.exponent, rest) := by
  unfold scale text
  cases hexp : n.exponent with
  | none => exact hrest.exponent?
  | some p =>
    obtain ⟨hne, hdigits⟩ := h.exponent p hexp
    exact exponent?_append hdigits hne p.1 hrest.noDigit

theorem fraction?_tail (h : n.WellFormed) (hrest : Delimited rest) :
    Json.fraction? (n.tail.map byteOf ++ rest) =
      some (n.text.fraction, n.scale.map byteOf ++ rest) := by
  unfold tail text
  by_cases hfraction : n.fraction = []
  · rw [if_pos hfraction, hfraction, List.nil_append]
    unfold scale
    split
    · exact hrest.fraction?
    · simp [Json.fraction?, byteOf, digitValues]
  · rw [if_neg hfraction, List.cons_append, List.map_cons, List.map_append, List.cons_append,
      List.append_assoc]
    exact fraction?_append h.fraction hfraction (noDigit_scale hrest)

theorem number?_unsigned (h : n.WellFormed) (hrest : Delimited rest) :
    (do
      let (whole, bytes) ← whole? ((n.whole ++ n.tail).map byteOf ++ rest)
      let (fraction, bytes) ← Json.fraction? bytes
      let (exponent, bytes) ← Json.exponent? bytes
      return (⟨n.negative, whole, fraction, exponent⟩, bytes)) = some (n.text, rest) := by
  rw [List.map_append, List.append_assoc, whole?_append h.whole h.lead (noDigit_tail hrest)]
  simp only [Option.bind_eq_bind, Option.bind_some, fraction?_tail h hrest, exponent?_scale h hrest]
  rfl

/-- **Numbers**: a numeral in an array is read to its end. -/
theorem number?_chars (h : n.WellFormed) (hrest : Delimited rest) :
    number? (n.chars.map byteOf ++ rest) = some (n.text, rest) := by
  have hunsigned := number?_unsigned h hrest
  unfold number? chars
  cases hneg : n.negative with
  | true =>
    rw [hneg] at hunsigned
    simpa using hunsigned
  | false =>
    rw [hneg] at hunsigned
    obtain ⟨c, cs, hwhole⟩ := h.whole_eq_cons
    have hsign : byteOf c ≠ byteOf '-' := by
      intro hc
      have hdigit := digit?_byteOf (h.whole c (hwhole ▸ List.mem_cons_self))
      rw [hc] at hdigit
      cases hdigit
    rw [hwhole] at hunsigned ⊢
    simpa [hsign] using hunsigned

/-- A numeral starts with a sign or a digit, which no other token does. -/
theorem chars_eq_cons (h : n.WellFormed) :
    ∃ c cs, n.chars = c :: cs ∧ (c = '-' ∨ c.isDigit) := by
  unfold chars
  cases n.negative with
  | true => exact ⟨_, _, rfl, .inl rfl⟩
  | false =>
    obtain ⟨c, cs, hwhole⟩ := h.whole_eq_cons
    refine ⟨c, cs ++ n.tail, ?_, .inr (h.whole c (hwhole ▸ List.mem_cons_self))⟩
    rw [hwhole]
    rfl

theorem token?_chars (h : n.WellFormed) (hrest : Delimited rest) :
    token? (n.chars.map byteOf ++ rest) = some (.number n.text, rest) := by
  have hnumber := number?_chars h hrest
  obtain ⟨c, cs, hchars, hc⟩ := chars_eq_cons h
  rw [hchars, List.map_cons, List.cons_append] at hnumber ⊢
  have hrange : 45 ≤ (byteOf c).toNat ∧ (byteOf c).toNat ≤ 57 := by
    rcases hc with rfl | hdigit
    · decide
    · rw [toNat_byteOf_digit hdigit]
      have := toNat_digit hdigit
      omega
  have hne {b : UInt8} (hb : b.toNat < 45 ∨ 57 < b.toNat) : byteOf c ≠ b := by
    rintro rfl
    omega
  have hmark : mark? (byteOf c) = none := by
    unfold mark?
    rw [if_neg (hne (by decide)), if_neg (hne (by decide)), if_neg (hne (by decide)),
      if_neg (hne (by decide)), if_neg (hne (by decide)), if_neg (hne (by decide))]
  have hname : (names.find? fun n => n.1.isPrefixOf (byteOf c :: (cs.map byteOf ++ rest))) =
      none := by
    have hn : byteOf 'n' ≠ byteOf c := (hne (by decide)).symm
    have ht : byteOf 't' ≠ byteOf c := (hne (by decide)).symm
    have hf : byteOf 'f' ≠ byteOf c := (hne (by decide)).symm
    simp [names, List.isPrefixOf, hn, ht, hf]
  have hquote : byteOf c ≠ byteOf '"' := hne (by decide)
  rw [token?, hmark]
  simp only [if_neg hquote, hname, hnumber, Option.map_some]

end Numeral

end ScheduleSearch.Json

/-
  Integers in decimal.

  The digits of an integer are read from the left, and each partial value is checked.  Partial
  values only move away from zero, so it is the whole value that decides.

  * `signed`, `IntegerRange.Reaches`: a magnitude with its sign, and that a range holds it;
  * `Signed`: digits, perhaps after a sign;
  * **`readChars_eq_ok_iff`**: a range reads the texts of its integers, and no others;
  * `read_repr`, `read_toString`: an integer of a range is read back from its decimal text.
-/
import Mathlib.Tactic.Common
import ScheduleSearch.Decimal.Integer

namespace ScheduleSearch

/-- A magnitude with its sign. -/
def signed (negative : Bool) (n : Nat) : Int :=
  if negative then -(n : Int) else n

/-- The text is these digits, perhaps after a sign. -/
inductive Signed (digits : List Char) : List Char → Bool → Prop
  | plain : Signed digits digits false
  | plus : Signed digits ('+' :: digits) false
  | minus : Signed digits ('-' :: digits) true

/-- At least one digit, and nothing else. -/
def Digits (cs : List Char) : Prop :=
  cs ≠ [] ∧ ∀ c ∈ cs, c.isDigit = true

theorem digitValue?_of_isDigit {c : Char} (h : c.isDigit = true) :
    digitValue? c = some (c.toNat - 48) :=
  if_pos (by simpa [Char.isDigit, Char.le_def] using h)

theorem digitValue?_of_not_isDigit {c : Char} (h : ¬ c.isDigit = true) : digitValue? c = none :=
  if_neg (by simpa [Char.isDigit, Char.le_def] using h)

theorem le_ofDigitChars (n : Nat) (cs : List Char) : n ≤ Nat.ofDigitChars 10 cs n := by
  induction cs generalizing n with
  | nil => simp
  | cons c cs ih =>
    rw [Nat.ofDigitChars_cons]
    exact Nat.le_trans (by omega) (ih _)

namespace IntegerRange

variable {r : IntegerRange} {negative : Bool} {n : Nat} {m : Int} {cs : List Char}

/-- The range goes as far from zero. -/
def Reaches (r : IntegerRange) (negative : Bool) (n : Nat) : Prop :=
  if negative then r.low ≤ -(n : Int) else (n : Int) ≤ r.high

theorem Reaches.mono (h : r.Reaches negative n) {k : Nat} (hk : k ≤ n) :
    r.Reaches negative k := by
  unfold Reaches at h ⊢
  cases negative
  · exact Int.le_trans (Int.ofNat_le.2 hk) h
  · exact Int.le_trans h (Int.neg_le_neg (Int.ofNat_le.2 hk))

/-! ## Digits -/

/-- One more digit is read if the value with it stays within the range. -/
theorem readDigits_cons {c : Char} (hc : c.isDigit = true) :
    r.readDigits negative (signed negative n) (c :: cs) = .ok m ↔
      r.Reaches negative (10 * n + (c.toNat - 48)) ∧
        r.readDigits negative (signed negative (10 * n + (c.toNat - 48))) cs = .ok m := by
  rw [readDigits, digitValue?_of_isDigit hc]
  generalize c.toNat - 48 = d
  cases negative with
  | false =>
    have hstep : (n : Int) * 10 + d = ((10 * n + d : Nat) : Int) := by
      omega
    simp only [signed, Reaches, Bool.false_eq_true, if_false, hstep]
    split
    · next hlt => exact ⟨nofun, fun hle => absurd hlt (Int.not_lt.2 hle.1)⟩
    · next hle => exact (and_iff_right (Int.not_lt.1 hle)).symm
  | true =>
    have hstep : -(n : Int) * 10 - d = -((10 * n + d : Nat) : Int) := by
      omega
    simp only [signed, Reaches, if_true, hstep]
    split
    · next hlt => exact ⟨nofun, fun hle => absurd hlt (Int.not_lt.2 hle.1)⟩
    · next hle => exact (and_iff_right (Int.not_lt.1 hle)).symm

theorem readDigits_eq_ok_iff (hn : r.Reaches negative n) :
    r.readDigits negative (signed negative n) cs = .ok m ↔
      (∀ c ∈ cs, c.isDigit = true) ∧ r.Reaches negative (Nat.ofDigitChars 10 cs n) ∧
        m = signed negative (Nat.ofDigitChars 10 cs n) := by
  induction cs generalizing n with
  | nil => simpa [readDigits, hn] using eq_comm
  | cons c cs ih =>
    by_cases hc : c.isDigit = true
    · rw [readDigits_cons hc, Nat.ofDigitChars_cons]
      constructor
      · rintro ⟨hstep, hread⟩
        obtain ⟨hcs, hvalue⟩ := (ih hstep).1 hread
        exact ⟨List.forall_mem_cons.2 ⟨hc, hcs⟩, hvalue⟩
      · rintro ⟨hcs, hreach, hm⟩
        have hstep := hreach.mono (le_ofDigitChars _ cs)
        exact ⟨hstep, (ih hstep).2 ⟨(List.forall_mem_cons.1 hcs).2, hreach, hm⟩⟩
    · rw [readDigits, digitValue?_of_not_isDigit hc]
      constructor
      · intro hread
        cases hread
      · rintro ⟨hcs, -⟩
        exact absurd (hcs c List.mem_cons_self) hc

/-! ## Signs -/

theorem readChars_plus (hne : cs ≠ []) :
    r.readChars ('+' :: cs) = r.readDigits false 0 cs := by
  cases cs with
  | nil => exact absurd rfl hne
  | cons c cs => rfl

theorem readChars_minus (hne : cs ≠ []) : r.readChars ('-' :: cs) =
    if r.low < 0 then r.readDigits true 0 cs else .error .invalidDigit := by
  cases cs with
  | nil => exact absurd rfl hne
  | cons c cs => rfl

theorem readChars_plain {c : Char} (hplus : c ≠ '+') (hminus : c ≠ '-') :
    r.readChars (c :: cs) = r.readDigits false 0 (c :: cs) := by
  unfold readChars
  split <;> simp_all

/-- What is read is digits, perhaps after a sign. -/
theorem exists_signed (h : r.readChars cs = .ok m) : ∃ digits negative, digits ≠ [] ∧
    Signed digits cs negative ∧ (negative = true → r.low < 0) ∧
      r.readDigits negative 0 digits = .ok m := by
  cases cs with
  | nil => cases h
  | cons c cs =>
    by_cases hplus : c = '+'
    · subst hplus
      cases cs with
      | nil => cases h
      | cons d ds => exact ⟨d :: ds, false, List.cons_ne_nil d ds, .plus, nofun, h⟩
    by_cases hminus : c = '-'
    · subst hminus
      cases cs with
      | nil => cases h
      | cons d ds =>
        rw [readChars_minus (List.cons_ne_nil d ds)] at h
        split at h
        · next hlow => exact ⟨d :: ds, true, List.cons_ne_nil d ds, .minus, fun _ => hlow, h⟩
        · cases h
    · rw [readChars_plain hplus hminus] at h
      exact ⟨c :: cs, false, List.cons_ne_nil c cs, .plain, nofun, h⟩

/-- **A range reads** the texts of its integers, with an optional sign, and no others. -/
theorem readChars_eq_ok_iff (hlow : r.low ≤ 0) (hhigh : 0 ≤ r.high) :
    r.readChars cs = .ok m ↔ ∃ digits negative, Digits digits ∧ Signed digits cs negative ∧
      (negative = true → r.low < 0) ∧ r.Reaches negative (Nat.ofDigitChars 10 digits 0) ∧
        m = signed negative (Nat.ofDigitChars 10 digits 0) := by
  have hread (negative : Bool) (ds : List Char) : r.readDigits negative 0 ds = .ok m ↔
      (∀ c ∈ ds, c.isDigit = true) ∧ r.Reaches negative (Nat.ofDigitChars 10 ds 0) ∧
        m = signed negative (Nat.ofDigitChars 10 ds 0) := by
    have hzero : r.Reaches negative 0 := by
      cases negative <;> simpa [Reaches]
    have hsigned : signed negative 0 = 0 := by
      cases negative <;> rfl
    rw [← hsigned]
    exact readDigits_eq_ok_iff hzero
  constructor
  · intro h
    obtain ⟨digits, negative, hne, hs, hneg, hdigits⟩ := exists_signed h
    obtain ⟨hd, hvalue⟩ := (hread negative digits).1 hdigits
    exact ⟨digits, negative, ⟨hne, hd⟩, hs, hneg, hvalue⟩
  · rintro ⟨digits, negative, ⟨hne, hd⟩, hs, hneg, hvalue⟩
    have hok := (hread negative digits).2 ⟨hd, hvalue⟩
    cases hs with
    | plain =>
      obtain ⟨c, cs, rfl⟩ := List.exists_cons_of_ne_nil hne
      have hc := hd c List.mem_cons_self
      rw [readChars_plain (by rintro rfl; cases hc) (by rintro rfl; cases hc)]
      exact hok
    | plus => exact (readChars_plus hne).trans hok
    | minus => exact (readChars_minus hne).trans ((if_pos (hneg rfl)).trans hok)

/-! ## Written integers -/

theorem digits_toDigits (n : Nat) : Digits (Nat.toDigits 10 n) :=
  ⟨Nat.toDigits_ne_nil, fun _ hc => Nat.isDigit_of_mem_toDigits (by decide) (by decide) hc⟩

theorem read_repr (hlow : r.low ≤ 0) (hn : (n : Int) ≤ r.high) : r.read n.repr = .ok (n : Int) := by
  refine (readChars_eq_ok_iff hlow (Int.le_trans (Int.natCast_nonneg n) hn)).2
    ⟨Nat.toDigits 10 n, false, digits_toDigits n, ?_, nofun, ?_⟩
  · rw [Nat.toList_repr]
    exact .plain
  · rw [Nat.ofDigitChars_ten_toDigits]
    exact ⟨hn, rfl⟩

/-- An integer of a range is read back from its decimal text. -/
theorem read_toString (hlow : r.low ≤ m) (hhigh : m ≤ r.high) (hzero : r.low ≤ 0 ∧ 0 ≤ r.high) :
    r.read (toString m) = .ok m := by
  rw [Int.toString_eq_repr, Int.repr_eq_if]
  split
  · next hm =>
    have hcast : (m.toNat : Int) = m := Int.toNat_of_nonneg hm
    exact (read_repr hzero.1 (hcast ▸ hhigh)).trans (congrArg _ hcast)
  · next hm =>
    have hcast : ((-m).toNat : Int) = -m := Int.toNat_of_nonneg (by omega)
    refine (readChars_eq_ok_iff hzero.1 hzero.2).2
      ⟨Nat.toDigits 10 (-m).toNat, true, digits_toDigits _, ?_, fun _ => by omega, ?_⟩
    · rw [String.toList_append, Nat.toList_repr]
      exact .minus
    · rw [Nat.ofDigitChars_ten_toDigits]
      simp only [Reaches, signed, if_true, hcast]
      omega

end IntegerRange

end ScheduleSearch

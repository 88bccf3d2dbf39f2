/-
  The texts that flags take.

  Whatever the kind of a flag, the texts that it takes are of visible ASCII characters, and
  have no comma, so that a token with such a text is one word of a command line.

  * `Ink`: the characters of these texts;
  * `Literal.ink_of_read?`: so for the literals of floats;
  * **`FlagKind.ink_of_read`**: so for the values of each kind.
-/
import ScheduleSearch.Command.Flag
import ScheduleSearch.Proofs.IntegerText
import ScheduleSearch.Text.Words

namespace ScheduleSearch

/-- A visible ASCII character, and no comma. -/
def Ink (c : Char) : Prop :=
  0x21 ≤ c.toNat ∧ c.toNat ≤ 0x7E ∧ c ≠ ','

instance : DecidablePred Ink :=
  fun c => inferInstanceAs (Decidable (0x21 ≤ c.toNat ∧ c.toNat ≤ 0x7E ∧ c ≠ ','))

variable {c : Char} {cs : List Char}

theorem Ink.not_isBlank (h : Ink c) : Text.isBlank c = false := by
  obtain ⟨hlow, hhigh, -⟩ := h
  simp only [Text.isBlank, Bool.or_eq_false_iff, Bool.and_eq_false_iff, decide_eq_false_iff_not,
    beq_eq_false_iff_ne]
  omega

theorem ink_of_isAlphanum (h : c.isAlphanum = true) : Ink c := by
  have hclasses : (decide (65 ≤ c.val ∧ c.val ≤ 90) ||
      (decide (97 ≤ c.val) && decide (c.val ≤ 122)) ||
      (decide (48 ≤ c.val) && decide (c.val ≤ 57))) = true := h
  have hbounds : 65 ≤ c.toNat ∧ c.toNat ≤ 90 ∨ 97 ≤ c.toNat ∧ c.toNat ≤ 122 ∨
      48 ≤ c.toNat ∧ c.toNat ≤ 57 := by
    simpa [UInt32.le_iff_toNat_le, or_assoc] using hclasses
  refine ⟨by omega, by omega, ?_⟩
  rintro rfl
  cases h

theorem ink_of_isDigit (h : c.isDigit = true) : Ink c :=
  ink_of_isAlphanum (by simp [Char.isAlphanum, h])

/-- Lower case changes letters only. -/
theorem ink_of_toLower (h : Ink c.toLower) : Ink c := by
  unfold Char.toLower at h
  split at h
  · next hupper =>
    have hbounds : 65 ≤ c.toNat ∧ c.toNat ≤ 90 := by
      simpa [UInt32.le_iff_toNat_le] using hupper
    refine ⟨by omega, by omega, ?_⟩
    rintro rfl
    simp at hbounds
  · exact h

theorem Signed.ink {digits : List Char} {negative : Bool} (h : Signed digits cs negative)
    (hd : ∀ c ∈ digits, Ink c) : ∀ c ∈ cs, Ink c := by
  cases h with
  | plain => exact hd
  | plus => exact List.forall_mem_cons.2 ⟨by decide, hd⟩
  | minus => exact List.forall_mem_cons.2 ⟨by decide, hd⟩

theorem IntegerRange.ink_of_read {r : IntegerRange} {s : String} {m : Int}
    (hlow : r.low ≤ 0) (hhigh : 0 ≤ r.high) (h : r.read s = .ok m) : ∀ c ∈ s.toList, Ink c := by
  obtain ⟨digits, negative, hd, hs, -⟩ := (readChars_eq_ok_iff hlow hhigh).1 h
  exact hs.ink fun c hc => ink_of_isDigit (hd.2 c hc)

theorem ink_of_lower {word : String} (hword : ∀ c ∈ word.toList, Ink c)
    (h : String.ofList (cs.map Char.toLower) = word) : ∀ c ∈ cs, Ink c := by
  intro c hc
  have hlower : c.toLower ∈ word.toList := by
    rw [← h, String.toList_ofList]
    exact List.mem_map_of_mem hc
  exact ink_of_toLower (hword _ hlower)

namespace Literal

theorem ink_of_isDigit (h : isDigit c = true) : Ink c := by
  by_cases hc : c.isDigit = true
  · exact ScheduleSearch.ink_of_isDigit hc
  · rw [isDigit, digitValue?_of_not_isDigit hc] at h
    cases h

theorem ink_of_all (h : cs.all isDigit = true) : ∀ c ∈ cs, Ink c :=
  fun c hc => ink_of_isDigit (List.all_eq_true.1 h c hc)

/-- Only what follows the digits at the front is left to check. -/
theorem ink_of_dropWhile (h : ∀ c ∈ cs.dropWhile isDigit, Ink c) : ∀ c ∈ cs, Ink c := by
  rw [← List.takeWhile_append_dropWhile (p := isDigit) (l := cs)]
  exact List.forall_mem_append.2 ⟨ink_of_all List.all_takeWhile, h⟩

theorem ink_of_exponent? {e : Int} (h : exponent? cs = some e) : ∀ c ∈ cs, Ink c := by
  have hdigits {negative : Bool} {ds : List Char}
      (h : (if ds.isEmpty ∨ !ds.all isDigit then none
        else some (if negative then -(value ds : Int) else value ds)) = some e) :
      ∀ d ∈ ds, Ink d := by
    split at h
    · cases h
    · next hds => exact ink_of_all (by simpa using fun hall => hds (.inr hall))
  unfold exponent? at h
  split at h
  · simp
  · next c cs =>
    split at h
    · next hmark =>
      have hc : Ink c := by
        rcases hmark with rfl | rfl <;> decide
      refine List.forall_mem_cons.2 ⟨hc, ?_⟩
      split at h
      next negative ds hpair =>
      split at hpair <;> cases hpair
      · exact List.forall_mem_cons.2 ⟨by decide, hdigits h⟩
      · exact List.forall_mem_cons.2 ⟨by decide, hdigits h⟩
      · exact hdigits h
    · cases h

theorem ink_of_unsigned? {negative : Bool} {l : Literal} (h : unsigned? negative cs = some l) :
    ∀ c ∈ cs, Ink c := by
  unfold unsigned? at h
  split at h
  · next hinf => exact ink_of_lower (by simp [Ink]) hinf
  · next hinfinity => exact ink_of_lower (by simp [Ink]) hinfinity
  · next hnan => exact ink_of_lower (by simp [Ink]) hnan
  · refine ink_of_dropWhile ?_
    dsimp only at h
    split at h
    · next rest heq =>
      rw [heq]
      split at h
      · cases h
      · obtain ⟨e, he, -⟩ := Option.map_eq_some_iff.1 h
        exact List.forall_mem_cons.2 ⟨by decide, ink_of_dropWhile (ink_of_exponent? he)⟩
    · split at h
      · cases h
      · obtain ⟨e, he, -⟩ := Option.map_eq_some_iff.1 h
        exact ink_of_exponent? he

theorem ink_of_read? {s : String} {l : Literal} (h : read? s = some l) : ∀ c ∈ s.toList, Ink c := by
  unfold read? at h
  split at h
  · next cs heq =>
    rw [heq]
    exact List.forall_mem_cons.2 ⟨by decide, ink_of_unsigned? h⟩
  · next cs heq =>
    rw [heq]
    exact List.forall_mem_cons.2 ⟨by decide, ink_of_unsigned? h⟩
  · exact ink_of_unsigned? h

end Literal

namespace Command

theorem ink_of_truth? {s : String} {b : Bool} (h : truth? s = some b) : ∀ c ∈ s.toList, Ink c := by
  have hwords : ∀ word ∈ ["y", "yes", "t", "true", "on", "1", "n", "no", "f", "false", "off", "0"],
      ∀ c ∈ word.toList, Ink c := by
    simp [Ink]
  refine ink_of_lower (hwords _ ?_) rfl
  unfold truth? at h
  dsimp only at h
  split at h
  · next htrue => exact List.mem_append_left ["n", "no", "f", "false", "off", "0"] htrue
  · split at h
    · next hfalse => exact List.mem_append_right ["y", "yes", "t", "true", "on", "1"] hfalse
    · cases h

theorem map_mapError_eq_ok {ε ε' β γ : Type} {x : Except ε β} {f : ε → ε'} {g : β → γ} {v : γ}
    (h : (x.mapError f).map g = .ok v) : ∃ y, x = .ok y ∧ g y = v := by
  cases x with
  | error err => cases h
  | ok y => exact ⟨y, rfl, Except.ok.inj h⟩

/-- **The texts of values** are of visible characters, and have no comma. -/
theorem FlagKind.ink_of_read {kind : FlagKind} {s : String} {v : FlagValue}
    (h : kind.read s = .ok v) : ∀ c ∈ s.toList, Ink c := by
  cases kind with
  | count =>
    obtain ⟨n, hn, -⟩ := map_mapError_eq_ok h
    exact IntegerRange.ink_of_read (by decide) (by decide) hn
  | natural =>
    obtain ⟨n, hn, -⟩ := map_mapError_eq_ok h
    exact IntegerRange.ink_of_read (by decide) (by decide) hn
  | mode =>
    obtain ⟨mode, hmode, -⟩ := map_mapError_eq_ok h
    unfold EvalMode.ofName at hmode
    split at hmode
    · simp [Ink]
    · simp [Ink]
    · simp [Ink]
    · cases hmode
  | seconds =>
    rw [read, readSeconds] at h
    cases hs : Literal.read? s with
    | none =>
      rw [hs] at h
      cases h
    | some l => exact Literal.ink_of_read? hs
  | switch =>
    rw [read] at h
    cases hs : truth? s with
    | none =>
      rw [hs] at h
      cases h
    | some b => exact ink_of_truth? hs

end Command

end ScheduleSearch

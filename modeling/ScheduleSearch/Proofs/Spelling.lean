/-
  The names of loop-nest actions, and their other spellings.

  A nest lists its legal actions by name, but it reads the factor of a split as it reads any
  number: with a sign before it, or with zeros.

  * `NestAction.Spells`: the texts that call an action;
  * **`NestAction.ofName?_eq_some_iff`**: these texts are read as actions, and no others;
  * `Nest.mem_available_iff`: the legal actions are listed, and no others;
  * **`LoopNest.accepts_iff`**: so a text is accepted exactly if it spells a listed action, and
    it is one of the listed names exactly if it is the name of an action;
  * `LoopNest.accepts_unlisted`: a text that is accepted, but not listed.
-/
import Mathlib.Data.List.Basic
import ScheduleSearch.Proofs.History
import ScheduleSearch.Proofs.IntegerText
import ScheduleSearch.Proofs.NestShape
import ScheduleSearch.Proofs.NestText

namespace ScheduleSearch

/-! ## Digits -/

theorem digitChar_of_isDigit {c : Char} (h : c.isDigit = true) :
    c.toNat - 48 < 10 ∧ (c.toNat - 48).digitChar = c := by
  have hc : 48 ≤ c.toNat ∧ c.toNat ≤ 57 := by
    simpa [Char.isDigit, UInt32.le_iff_toNat_le] using h
  have hlt : c.toNat - 48 < 10 := by omega
  refine ⟨hlt, Char.toNat_inj.1 ?_⟩
  rw [Nat.toNat_digitChar_of_lt_ten hlt]
  omega

/-- Digits are the decimal of their value, perhaps after some zeros. -/
theorem Digits.eq_zeros_append {cs : List Char} (h : Digits cs) :
    ∃ zeros, cs = List.replicate zeros '0' ++ Nat.toDigits 10 (Nat.ofDigitChars 10 cs 0) := by
  obtain ⟨hne, hdigits⟩ := h
  -- on the digits from the last: one more digit is one more of the decimal, unless the value
  -- before it is zero
  induction cs using List.reverseRecOn with
  | nil => exact absurd rfl hne
  | append_singleton cs c ih =>
    obtain ⟨hlt, hc⟩ := digitChar_of_isDigit (hdigits c (by simp))
    have hvalue : Nat.ofDigitChars 10 (cs ++ [c]) 0 =
        10 * Nat.ofDigitChars 10 cs 0 + (c.toNat - 48) := by
      rw [Nat.ofDigitChars_append, Nat.ofDigitChars_cons, Nat.ofDigitChars_nil]
      rfl
    have hlast : Nat.toDigits 10 (c.toNat - 48) = [c] := by
      rw [Nat.toDigits_of_lt_base hlt, hc]
    rw [hvalue]
    by_cases hcs : cs = []
    · subst hcs
      exact ⟨0, by simp [hlast]⟩
    obtain ⟨zeros, hzeros⟩ := ih hcs fun d hd => hdigits d (by simp [hd])
    rcases Nat.eq_zero_or_pos (Nat.ofDigitChars 10 cs 0) with hzero | hpos
    · rw [hzero, Nat.toDigits_zero] at hzeros
      refine ⟨zeros + 1, ?_⟩
      rw [hzero, hzeros, Nat.mul_zero, Nat.zero_add, hlast, List.replicate_succ']
    · refine ⟨zeros, ?_⟩
      rw [← Nat.toDigits_append_toDigits (by decide) hpos hlt, hlast, ← List.append_assoc,
        ← hzeros]

theorem ofDigitChars_zeros_append (zeros n : Nat) :
    Nat.ofDigitChars 10 (List.replicate zeros '0' ++ Nat.toDigits 10 n) 0 = n := by
  rw [Nat.ofDigitChars_append, Nat.ofDigitChars_replicate_zero, Nat.mul_zero,
    Nat.ofDigitChars_ten_toDigits]

/-- A number of 32 bits is digits, perhaps after a plus sign. -/
theorem IntegerRange.unsigned32_eq_ok_iff {cs : List Char} {m : Int} :
    unsigned32.readChars cs = .ok m ↔ ∃ digits, Digits digits ∧
      (cs = digits ∨ cs = '+' :: digits) ∧ Nat.ofDigitChars 10 digits 0 < UInt32.size ∧
        m = Nat.ofDigitChars 10 digits 0 := by
  rw [readChars_eq_ok_iff (by decide) (by decide)]
  have hreaches : ∀ n : Nat, unsigned32.Reaches false n ↔ n < UInt32.size := fun n => by
    show (n : Int) ≤ 0xFFFFFFFF ↔ n < 4294967296
    omega
  constructor
  · rintro ⟨digits, negative, hdigits, hsigned, hlow, hreach, hm⟩
    cases hsigned with
    | plain => exact ⟨_, hdigits, .inl rfl, (hreaches _).1 hreach, hm⟩
    | plus => exact ⟨_, hdigits, .inr rfl, (hreaches _).1 hreach, hm⟩
    | minus => exact absurd (hlow rfl) (by decide)
  · rintro ⟨digits, hdigits, rfl | rfl, hlt, hm⟩
    · exact ⟨cs, false, hdigits, .plain, nofun, (hreaches _).2 hlt, hm⟩
    · exact ⟨digits, false, hdigits, .plus, nofun, (hreaches _).2 hlt, hm⟩

/-! ## Spellings -/

namespace NestAction

/-- The actions that there are. -/
def all : List NestAction :=
  [up, down, swapUp, swapDown, merge] ++ splitFactors.map split

/-- The texts that call an action: its name, and for a split also its name with a sign or with
    zeros before the factor. -/
inductive Spells : NestAction → String → Prop
  | name {action : NestAction} : action ∈ all → Spells action action.name
  | padded {factor : UInt32} {sign : String} (zeros : Nat) : factor ∈ splitFactors →
      sign ∈ ["", "+"] →
      Spells (.split factor)
        ("split_" ++ sign ++ String.ofList (List.replicate zeros '0') ++ factor.toNat.repr)

variable {action : NestAction} {s : String} {factor : UInt32} {cs : List Char}

theorem Spells.mem_all (h : action.Spells s) : action ∈ all := by
  cases h with
  | name h => exact h
  | padded _ h _ => exact List.mem_append_right _ (List.mem_map_of_mem h)

theorem name_split (factor : UInt32) : (split factor).name = "split_" ++ factor.toNat.repr := by
  simp [name, toString]

/-- What follows the stem of a split is read as a number of 32 bits. -/
theorem ofName?_stem (h : s.toList = "split_".toList ++ cs) :
    ofName? s = some action ↔ ∃ factor ∈ splitFactors, action = split factor ∧
      IntegerRange.unsigned32.readChars cs = .ok (factor.toNat : Int) := by
  have hprefix : "split_".toList.isPrefixOf s.toList = true := by
    rw [h, List.isPrefixOf_iff_prefix]
    exact List.prefix_append _ _
  have hdrop : s.toList.drop "split_".toList.length = cs := by
    rw [h, List.drop_left]
  unfold ofName?
  split
  case h_6 =>
    dsimp only
    rw [if_pos hprefix, hdrop]
    constructor
    · intro hread
      split at hread
      · next n hn =>
        obtain ⟨digits, -, -, hlt, rfl⟩ := IntegerRange.unsigned32_eq_ok_iff.1 hn
        rw [Int.toNat_natCast] at hread
        split at hread
        · next hfactor =>
          refine ⟨_, hfactor, (Option.some.inj hread).symm, ?_⟩
          rw [hn, UInt32.toNat_ofNat_of_lt' hlt]
        · cases hread
      · cases hread
    · rintro ⟨factor, hfactor, rfl, hread⟩
      rw [hread]
      simp [hfactor]
  all_goals exact absurd h (by simp)

/-- The factor of a split may have a sign and zeros before it, and nothing else. -/
theorem readChars_factor_iff :
    IntegerRange.unsigned32.readChars cs = .ok (factor.toNat : Int) ↔
      ∃ sign ∈ ["", "+"], ∃ zeros,
        cs = sign.toList ++ (List.replicate zeros '0' ++ factor.toNat.repr.toList) := by
  rw [IntegerRange.unsigned32_eq_ok_iff, Nat.toList_repr]
  constructor
  · rintro ⟨digits, hdigits, hcs, -, hvalue⟩
    obtain ⟨zeros, hzeros⟩ := hdigits.eq_zeros_append
    rw [← Int.ofNat_inj.1 hvalue] at hzeros
    rcases hcs with rfl | rfl
    · exact ⟨"", by simp, zeros, hzeros⟩
    · exact ⟨"+", by simp, zeros, congrArg ('+' :: ·) hzeros⟩
  · rintro ⟨sign, hsign, zeros, rfl⟩
    refine ⟨List.replicate zeros '0' ++ Nat.toDigits 10 factor.toNat, ⟨?_, ?_⟩, ?_, ?_, ?_⟩
    · simp [Nat.toDigits_ne_nil]
    · intro c hc
      rcases List.mem_append.1 hc with hc | hc
      · rw [List.eq_of_mem_replicate hc]
        rfl
      · exact Nat.isDigit_of_mem_toDigits (by decide) (by decide) hc
    · rcases List.mem_pair.1 hsign with rfl | rfl
      · exact .inl rfl
      · exact .inr rfl
    · rw [ofDigitChars_zeros_append]
      exact factor.toNat_lt
    · rw [ofDigitChars_zeros_append]

/-- **The texts that are read as actions** are those that spell one. -/
theorem ofName?_eq_some_iff : ofName? s = some action ↔ action.Spells s := by
  constructor
  · intro h
    by_cases hstem : "split_".toList <+: s.toList
    · obtain ⟨cs, hcs⟩ := hstem
      obtain ⟨factor, hfactor, rfl, hread⟩ := (ofName?_stem hcs.symm).1 h
      obtain ⟨sign, hsign, zeros, rfl⟩ := readChars_factor_iff.1 hread
      have hs : s = "split_" ++ sign ++ String.ofList (List.replicate zeros '0') ++
          factor.toNat.repr := by
        rw [← String.toList_inj, ← hcs]
        simp
      rw [hs]
      exact .padded zeros hfactor hsign
    · unfold ofName? at h
      split at h
      case h_6 =>
        dsimp only at h
        rw [if_neg (by rwa [List.isPrefixOf_iff_prefix])] at h
        cases h
      all_goals
        obtain rfl := Option.some.inj h
        exact .name (by decide)
  · intro h
    cases h with
    | name hmem =>
      rcases List.mem_append.1 hmem with hplain | hsplit
      · simp only [List.mem_cons, List.not_mem_nil, or_false] at hplain
        rcases hplain with rfl | rfl | rfl | rfl | rfl <;> rfl
      · obtain ⟨factor, hfactor, rfl⟩ := List.mem_map.1 hsplit
        have hname : (split factor).name.toList =
            "split_".toList ++ factor.toNat.repr.toList := by
          rw [name_split, String.toList_append]
        exact (ofName?_stem hname).2 ⟨factor, hfactor, rfl,
          readChars_factor_iff.2 ⟨"", by simp, 0, rfl⟩⟩
    | @padded factor sign zeros hfactor hsign =>
      have htext : ("split_" ++ sign ++ String.ofList (List.replicate zeros '0') ++
          factor.toNat.repr).toList = "split_".toList ++
            (sign.toList ++ (List.replicate zeros '0' ++ factor.toNat.repr.toList)) := by
        simp
      exact (ofName?_stem htext).2 ⟨factor, hfactor, rfl,
        readChars_factor_iff.2 ⟨sign, hsign, zeros, rfl⟩⟩

/-- An action is spelled by its name. -/
theorem ofName?_name (h : action ∈ all) : ofName? action.name = some action :=
  ofName?_eq_some_iff.2 (.name h)

end NestAction

/-! ## Listed actions -/

open Agent NestAction

/-- A nest lists the actions that are legal in it. -/
theorem Nest.mem_available_iff {s : Nest} {action : NestAction} :
    action ∈ s.available ↔ action ∈ all ∧ ∃ s', s.act action = .ok s' := by
  have hguard : ∀ {c : Prop} [Decidable c] {t : Nest} {detail : String},
      (∃ s', (if c then .ok t else .error detail : Except String Nest) = .ok s') ↔ c :=
    fun {c _ t _} => ⟨fun ⟨_, h⟩ => (ok_of_guarded h).1, fun h => ⟨t, if_pos h⟩⟩
  have hlisted : ∀ {c : Prop} [Decidable c] {actions : List NestAction},
      action ∈ (if c then actions else []) ↔ c ∧ action ∈ actions := by
    intro c _ actions
    split <;> simp [*]
  unfold available all
  simp only [List.mem_append, hlisted]
  cases action with
  | split factor => simp [act, hguard, List.mem_filter]
  | up | down | swapUp | swapDown | merge => simp [act, hguard]

namespace LoopNest

variable {a b : LoopNest} {action : NestAction} {text : String}

/-- A text that spells an action does it, if it is legal. -/
theorem moves_iff_act (h : ofName? text = some action) :
    Moves a text b ↔ ∃ nest, a.nest.act action = .ok nest ∧
      b = ⟨nest, a.actions ++ [text], a.nest :: a.saved⟩ := by
  unfold Moves
  rw [changed_apply]
  unfold Nest.called
  rw [h]
  dsimp only
  cases a.nest.act action with
  | error detail => simp [Except.map, Except.mapError]
  | ok nest => simp [Except.map, Except.mapError, eq_comm]

theorem apply_eq_unknown_iff :
    Agent.apply text a = .error (.unknownAction text) a ↔ ofName? text = none := by
  show LoopNest.apply text a = _ ↔ _
  unfold LoopNest.apply
  cases ofName? text with
  | none => simp
  | some action =>
    dsimp only
    cases a.nest.act action <;> simp

/-- **The texts that a loop nest accepts** are those that spell a listed action.  They do what
    the name of that action does, and are listed themselves exactly if they are the name of an
    action; a text is unknown exactly if it spells no action at all. -/
theorem accepts_iff (a : LoopNest) (text : String) :
    ((∃ b, Moves a text b) ↔ ∃ action ∈ a.nest.available, action.Spells text) ∧
    (∀ (action : NestAction) (b : LoopNest), action.Spells text → Moves a text b →
      ∃ c, Moves a action.name c ∧ c.nest = b.nest) ∧
    ((∃ b, Moves a text b) → (text ∈ Agent.available a ↔ text ∈ all.map NestAction.name)) ∧
    (Agent.apply text a = .error (.unknownAction text) a ↔
      ∀ action : NestAction, ¬ action.Spells text) := by
  have haccepted : (∃ b, Moves a text b) ↔ ∃ action ∈ a.nest.available, action.Spells text := by
    constructor
    · rintro ⟨b, hb⟩
      cases htext : ofName? text with
      | none =>
        have hunknown := (apply_eq_unknown_iff (a := a)).2 htext
        rw [moves_iff_apply.1 hb] at hunknown
        cases hunknown
      | some action =>
        obtain ⟨nest, hact, -⟩ := (moves_iff_act htext).1 hb
        have hspells := ofName?_eq_some_iff.1 htext
        exact ⟨action, Nest.mem_available_iff.2 ⟨hspells.mem_all, nest, hact⟩, hspells⟩
    · rintro ⟨action, hlisted, hspells⟩
      obtain ⟨-, nest, hact⟩ := Nest.mem_available_iff.1 hlisted
      exact ⟨_, (moves_iff_act (ofName?_eq_some_iff.2 hspells)).2 ⟨nest, hact, rfl⟩⟩
  refine ⟨haccepted, ?_, fun hmoves => ?_, ?_⟩
  · intro action b hspells hb
    obtain ⟨nest, hact, rfl⟩ := (moves_iff_act (ofName?_eq_some_iff.2 hspells)).1 hb
    exact ⟨_, (moves_iff_act (ofName?_name hspells.mem_all)).2 ⟨nest, hact, rfl⟩, rfl⟩
  · constructor
    · intro hlisted
      obtain ⟨action, haction, rfl⟩ := List.mem_map.1 hlisted
      exact List.mem_map_of_mem (Nest.mem_available_iff.1 haction).1
    · intro hname
      obtain ⟨action, hmem, rfl⟩ := List.mem_map.1 hname
      obtain ⟨other, hlisted, hspells⟩ := haccepted.1 hmoves
      -- the name spells one action only
      obtain rfl : other = action := Option.some.inj
        ((ofName?_eq_some_iff.2 hspells).symm.trans (ofName?_name hmem))
      exact List.mem_map_of_mem hlisted
  · rw [apply_eq_unknown_iff, Option.eq_none_iff_forall_ne_some]
    exact forall_congr' fun action => not_congr ofName?_eq_some_iff

/-- A split of the outermost loop is accepted with a zero before its factor, and does what its
    name does. -/
theorem accepts_iff_padded :
    (∃ b, Moves (matmul 8 8 8) "split_02" b) ∧
      ∀ b, Moves (matmul 8 8 8) "split_02" b →
        ∃ c, Moves (matmul 8 8 8) "split_2" c ∧ c.nest = b.nest := by
  have hspells : (split 2).Spells "split_02" :=
    @Spells.padded 2 "" 1 (by decide) (by decide)
  constructor
  · exact (accepts_iff (matmul 8 8 8) "split_02").1.2 ⟨split 2, by decide, hspells⟩
  · intro b hb
    exact (accepts_iff (matmul 8 8 8) "split_02").2.1 (split 2) b hspells hb

/-- A text that is accepted, though it is not listed; and one that is no name of an action,
    though it is not unknown. -/
theorem accepts_unlisted :
    ((∃ b, Moves (matmul 8 8 8) "split_02" b) ∧
      "split_02" ∉ Agent.available (matmul 8 8 8)) ∧
    "split_016" ∉ all.map NestAction.name ∧
      Agent.apply "split_016" (matmul 8 8 8) =
        .error (.illegalAction "split_016" "loop size is not a larger multiple of the factor")
          (matmul 8 8 8) := by
  refine ⟨⟨⟨_, rfl⟩, by decide +kernel⟩, by decide +kernel, rfl⟩

end LoopNest

end ScheduleSearch

/-
  Arrays written as JSON are read back.

  * `Scans bytes ts` says that `ts` are the tokens of `bytes`, and `Denotes ts v` that they
    spell the value `v`; both say so for any fuel that is large enough;
  * `Writes s v` says that `s` is read as `v` inside an array;
  * **`Writes.writeArray`**, **`read?_writeArray`**: an array of such texts is read as the
    array of their values, inside an array and by itself.
-/
import ScheduleSearch.Json.Value
import ScheduleSearch.Json.Writer
import ScheduleSearch.Proofs.JsonNumber
import ScheduleSearch.Proofs.JsonText

namespace ScheduleSearch.Json

/-! ## Tokens -/

/-- `ts` are the tokens of `bytes`. -/
def Scans (bytes : List UInt8) (ts : List Token) : Prop :=
  ∀ n, bytes.length ≤ n → scan n bytes = some ts

theorem scans_nil : Scans [] [] := by
  intro n _
  cases n <;> rfl

/-- No token starts with a blank. -/
theorem not_isBlank {b : UInt8} {rest : List UInt8} {r : Token × List UInt8}
    (h : token? (b :: rest) = some r) : isBlank b = false := by
  rw [← Bool.not_eq_true]
  intro hblank
  have hb : b = byteOf ' ' ∨ b = byteOf '\t' ∨ b = byteOf '\n' ∨ b = byteOf '\r' := by
    simpa only [isBlank, Bool.or_eq_true, beq_iff_eq, or_assoc] using hblank
  rcases hb with rfl | rfl | rfl | rfl <;>
    simp [token?, mark?, names, number?, whole?, digits, digit?, byteOf, List.isPrefixOf] at h

theorem Scans.token {bytes rest : List UInt8} {t : Token} {ts : List Token} (hne : bytes ≠ [])
    (htoken : token? (bytes ++ rest) = some (t, rest)) (h : Scans rest ts) :
    Scans (bytes ++ rest) (t :: ts) := by
  obtain ⟨b, bytes, rfl⟩ := List.exists_cons_of_ne_nil hne
  intro n hn
  obtain ⟨n, rfl⟩ : ∃ m, n = m + 1 := ⟨n - 1, by simp at hn; omega⟩
  rw [List.cons_append] at htoken ⊢
  rw [scan, not_isBlank htoken, htoken]
  simp only [Bool.false_eq_true, if_false]
  rw [h n (by simp at hn; omega), Option.map_some]

theorem Scans.mark {b : UInt8} {rest : List UInt8} {t : Token} {ts : List Token}
    (hmark : mark? b = some t) (h : Scans rest ts) : Scans (b :: rest) (t :: ts) := by
  have htoken : token? ([b] ++ rest) = some (t, rest) := by
    rw [List.singleton_append, token?, hmark]
  exact Scans.token (List.cons_ne_nil b []) htoken h

/-! ## Values -/

open Value (value? items?)

/-- The tokens `ts` spell the value `v`. -/
def Denotes (ts : List Token) (v : Value) : Prop :=
  ∀ n, ts.length ≤ n → ∀ rest, value? n (ts ++ rest) = some (v, rest)

theorem Denotes.ne_nil {ts : List Token} {v : Value} (h : Denotes ts v) : ts ≠ [] := by
  rintro rfl
  cases h 0 (Nat.le_refl _) []

/-- A value does not start with the end of an array. -/
theorem Denotes.head_ne {ts : List Token} {v : Value} (h : Denotes ts v) :
    ts.head? ≠ some .closeArray := by
  intro hhead
  obtain ⟨t, ts, rfl⟩ := List.exists_cons_of_ne_nil h.ne_nil
  obtain rfl : t = .closeArray := Option.some_inj.1 hhead
  have := h _ (Nat.le_refl _) []
  simp [value?] at this

theorem denotes_text (p : Spelling) : Denotes [.text p] (.text p) := by
  intro n hn rest
  obtain ⟨n, rfl⟩ : ∃ m, n = m + 1 := ⟨n - 1, by simp at hn; omega⟩
  rfl

theorem denotes_number (x : NumberText) : Denotes [.number x] (.number x) := by
  intro n hn rest
  obtain ⟨n, rfl⟩ : ∃ m, n = m + 1 := ⟨n - 1, by simp at hn; omega⟩
  rfl

theorem denotes_null : Denotes [.null] .null := by
  intro n hn rest
  obtain ⟨n, rfl⟩ : ∃ m, n = m + 1 := ⟨n - 1, by simp at hn; omega⟩
  rfl

/-- The items of an array, up to its end. -/
theorem items?_append {tss : List (List Token)} {vs : List Value}
    (h : List.Forall₂ Denotes tss vs) (hne : tss ≠ []) (n : ℕ)
    (hn : ([Token.comma].intercalate tss).length < n) (rest : List Token) :
    items? n ([Token.comma].intercalate tss ++ .closeArray :: rest) = some (vs, rest) := by
  induction h generalizing n with
  | nil => exact absurd rfl hne
  | @cons ts v tss vs hv h ih =>
    obtain ⟨n, rfl⟩ : ∃ m, n = m + 1 := ⟨n - 1, by omega⟩
    cases h with
    | nil =>
      rw [List.intercalate_singleton] at hn ⊢
      rw [items?, hv n (by omega)]
    | cons hv' h' =>
      rw [List.intercalate_cons_cons, List.length_append, List.length_append] at hn
      rw [List.intercalate_cons_cons, List.append_assoc, List.append_assoc, items?,
        hv n (by omega), List.singleton_append]
      simp only
      rw [ih (List.cons_ne_nil _ _) n (by simp at hn; omega), Option.map_some]

/-- The tokens of an array. -/
def arrayTokens (tss : List (List Token)) : List Token :=
  .openArray :: ([Token.comma].intercalate tss ++ [.closeArray])

theorem value?_openArray {ts : List Token} (h : ts.head? ≠ some .closeArray) (n : ℕ) :
    value? (n + 1) (.openArray :: ts) =
      (items? n ts).map fun r => (.array r.1, r.2) := by
  cases ts with
  | nil => rfl
  | cons t ts => cases t <;> first | rfl | exact absurd rfl h

theorem denotes_array {tss : List (List Token)} {vs : List Value}
    (h : List.Forall₂ Denotes tss vs) : Denotes (arrayTokens tss) (.array vs) := by
  intro n hn rest
  obtain ⟨n, rfl⟩ : ∃ m, n = m + 1 := ⟨n - 1, by simp [arrayTokens] at hn; omega⟩
  unfold arrayTokens at hn ⊢
  rw [List.cons_append, List.append_assoc, List.singleton_append]
  cases h with
  | nil => rfl
  | @cons ts v tss vs hv h =>
    have hhead : ([Token.comma].intercalate (ts :: tss) ++ .closeArray :: rest).head? ≠
        some .closeArray := by
      obtain ⟨us, hus⟩ : ∃ us, [Token.comma].intercalate (ts :: tss) = ts ++ us := by
        cases tss with
        | nil => exact ⟨[], by rw [List.intercalate_singleton, List.append_nil]⟩
        | cons ts' tss =>
          rw [List.intercalate_cons_cons, List.append_assoc]
          exact ⟨_, rfl⟩
      rw [hus, List.append_assoc, List.head?_append_of_ne_nil _ hv.ne_nil]
      exact hv.head_ne
    rw [value?_openArray hhead, items?_append (.cons hv h) (List.cons_ne_nil _ _) n
      (by simp at hn; omega), Option.map_some]

/-! ## Texts -/

/-- `s` is read as `v` inside an array. -/
def Writes (s : String) (v : Value) : Prop :=
  ∃ ts, Denotes ts v ∧ ∀ rest us, Delimited rest → Scans rest us → Scans (utf8 s ++ rest) (ts ++ us)

theorem writes_text (s : String) : ∃ p : Spelling, p.text? = some s ∧
    Writes (writeText s) (.text p) := by
  obtain ⟨p, htext, htoken⟩ := token?_writeText s
  have hne : utf8 (writeText s) ≠ [] := by
    intro hnil
    have := htoken []
    rw [hnil] at this
    cases this
  exact ⟨p, htext, _, denotes_text p, fun rest _ _ h => Scans.token hne (htoken rest) h⟩

theorem writes_null : Writes "null" .null := by
  have hbytes : utf8 "null" = "null".toList.map byteOf := by decide
  refine ⟨_, denotes_null, fun rest us _ h => ?_⟩
  rw [hbytes]
  exact Scans.token (by simp) rfl h

/-- The items of an array, without its brackets. -/
theorem scans_items {items : List String} {vs : List Value} (h : List.Forall₂ Writes items vs) :
    ∃ tss, List.Forall₂ Denotes tss vs ∧ ∀ rest us, Delimited rest → Scans rest us →
      Scans (utf8 (",".intercalate items) ++ rest) ([Token.comma].intercalate tss ++ us) := by
  induction h with
  | nil => exact ⟨[], .nil, fun rest us _ h => h⟩
  | @cons s v items vs hs h ih =>
    obtain ⟨ts, hdenotes, hscans⟩ := hs
    obtain ⟨tss, hdenotes', hscans'⟩ := ih
    refine ⟨ts :: tss, .cons hdenotes hdenotes', fun rest us hrest hus => ?_⟩
    cases h with
    | nil =>
      cases hdenotes'
      rw [String.intercalate_singleton, List.intercalate_singleton]
      exact hscans rest us hrest hus
    | @cons s' v' items vs =>
      cases hdenotes' with
      | @cons ts' _ tss _ =>
        have hcomma : utf8 "," = [byteOf ','] := by decide
        rw [String.intercalate_cons_cons, utf8_append, utf8_append, hcomma,
          List.intercalate_cons_cons]
        simp only [List.append_assoc, List.singleton_append]
        exact hscans _ _ ⟨_, _, rfl, .inl rfl⟩ (Scans.mark rfl (hscans' rest us hrest hus))

/-- An array is read to its end, whatever stands after it. -/
theorem scans_writeArray {items : List String} {vs : List Value}
    (h : List.Forall₂ Writes items vs) :
    ∃ ts, Denotes ts (.array vs) ∧ ∀ rest us, Scans rest us →
      Scans (utf8 (writeArray items) ++ rest) (ts ++ us) := by
  obtain ⟨tss, hdenotes, hscans⟩ := scans_items h
  refine ⟨_, denotes_array hdenotes, fun rest us hus => ?_⟩
  have hopen : utf8 "[" = [byteOf '['] := by decide
  have hclose : utf8 "]" = [byteOf ']'] := by decide
  unfold writeArray arrayTokens
  rw [utf8_append, utf8_append, hopen, hclose]
  simp only [List.append_assoc, List.cons_append, List.nil_append]
  exact Scans.mark rfl (hscans _ _ ⟨_, _, rfl, .inr rfl⟩ (Scans.mark rfl hus))

/-- **Arrays** of texts that are read are read as the arrays of their values. -/
theorem Writes.writeArray {items : List String} {vs : List Value}
    (h : List.Forall₂ Writes items vs) : Writes (writeArray items) (.array vs) := by
  obtain ⟨ts, hdenotes, hscans⟩ := scans_writeArray h
  exact ⟨ts, hdenotes, fun rest us _ hus => hscans rest us hus⟩

/-- **Arrays** by themselves are whole texts. -/
theorem read?_writeArray {items : List String} {vs : List Value}
    (h : List.Forall₂ Writes items vs) :
    Value.read? (utf8 (Json.writeArray items)) = some (.array vs) := by
  obtain ⟨ts, hdenotes, hscans⟩ := scans_writeArray h
  have htokens : tokens? (utf8 (Json.writeArray items)) = some ts := by
    have := hscans [] [] scans_nil
    rw [List.append_nil, List.append_nil] at this
    exact this _ (Nat.le_refl _)
  have hvalue := hdenotes (2 * ts.length + 2) (by omega) []
  rw [List.append_nil] at hvalue
  rw [Value.read?, htokens, Option.bind_some, Value.ofTokens?, hvalue]

end ScheduleSearch.Json

/-
  Cutting written text.

  A text that was put together from runs and separators is cut into those runs again.

  * `pieces_append`: a separator cuts what is before it from what is after it;
  * `pieces_terminated`: lines that each end with a separator are its pieces, with an empty
    piece after the last;
  * `Spaced ws cs`: the words `ws` stand in `cs`, with any blanks between them and around
    them;
  * **`words_spaced`**: words without blanks are found again, however they are spaced.
-/
import ScheduleSearch.Text.Words

namespace ScheduleSearch.Text

variable {p : Char → Bool} {c : Char} {cs : List Char}

/-! ## Pieces -/

theorem pieces_ne_nil (p : Char → Bool) (cs : List Char) : pieces p cs ≠ [] := by
  intro h
  have hlength := length_pieces p cs
  rw [h] at hlength
  cases hlength

theorem pieces_cons_separator (hc : p c = true) (cs : List Char) :
    pieces p (c :: cs) = [] :: pieces p cs := by
  rw [pieces]
  cases h : pieces p cs with
  | nil => exact absurd h (pieces_ne_nil p cs)
  | cons run runs => simp [hc]

/-- A separator cuts what is before it from what is after it. -/
theorem pieces_append (hc : p c = true) (xs ys : List Char) :
    pieces p (xs ++ c :: ys) = pieces p xs ++ pieces p ys := by
  induction xs with
  | nil => exact pieces_cons_separator hc ys
  | cons x xs ih =>
    rw [List.cons_append, pieces, pieces, ih]
    cases h : pieces p xs with
    | nil => exact absurd h (pieces_ne_nil p xs)
    | cons run runs =>
      dsimp only [List.cons_append]
      split <;> rfl

/-- Text without a separator is one piece. -/
theorem pieces_run (h : ∀ c ∈ cs, p c = false) : pieces p cs = [cs] := by
  induction cs with
  | nil => rfl
  | cons c cs ih =>
    rw [pieces, ih fun d hd => h d (List.mem_cons_of_mem c hd)]
    simp [h c List.mem_cons_self]

/-- A piece has no separator. -/
theorem not_separator_of_mem_pieces {piece : List Char} (h : piece ∈ pieces p cs) :
    ∀ c ∈ piece, p c = false := by
  induction cs generalizing piece with
  | nil =>
    obtain rfl := List.mem_singleton.1 h
    exact nofun
  | cons d cs ih =>
    rw [pieces] at h
    cases hruns : pieces p cs with
    | nil => exact absurd hruns (pieces_ne_nil p cs)
    | cons run runs =>
      simp only [hruns] at h ih
      by_cases hd : p d = true
      · rw [if_pos hd] at h
        rcases List.mem_cons.1 h with rfl | h
        · exact nofun
        · exact ih h
      · rw [if_neg hd] at h
        rcases List.mem_cons.1 h with rfl | h
        · exact List.forall_mem_cons.2 ⟨by simpa using hd, ih List.mem_cons_self⟩
        · exact ih (List.mem_cons_of_mem run h)

/-- Lines that each end with a separator. -/
theorem pieces_terminated (hc : p c = true) {lines : List (List Char)}
    (h : ∀ line ∈ lines, ∀ d ∈ line, p d = false) :
    pieces p (lines.flatMap (· ++ [c])) = lines ++ [[]] := by
  induction lines with
  | nil => rfl
  | cons line lines ih =>
    rw [List.flatMap_cons, List.append_assoc, List.singleton_append, pieces_append hc,
      pieces_run (h line List.mem_cons_self), ih fun l hl => h l (List.mem_cons_of_mem line hl)]
    rfl

/-! ## Words -/

/-- The words stand in the text in this order, with blanks between them and perhaps before
    and after. -/
inductive Spaced : List String → List Char → Prop
  | none : Spaced [] []
  | blank {c : Char} {ws : List String} {cs : List Char} :
      isBlank c = true → Spaced ws cs → Spaced ws (c :: cs)
  | last (w : String) : Spaced [w] w.toList
  | word (w : String) {c : Char} {ws : List String} {cs : List Char} :
      isBlank c = true → Spaced ws cs → Spaced (w :: ws) (w.toList ++ c :: cs)

/-- There is nothing else in the text. -/
theorem Spaced.mem {ws : List String} (h : Spaced ws cs) (hc : c ∈ cs) :
    isBlank c = true ∨ ∃ w ∈ ws, c ∈ w.toList := by
  induction h with
  | none => cases hc
  | blank hblank _ ih =>
    rcases List.mem_cons.1 hc with rfl | hc
    · exact .inl hblank
    · exact ih hc
  | last w => exact .inr ⟨w, List.mem_cons_self, hc⟩
  | word w hblank _ ih =>
    rcases List.mem_append.1 hc with hc | hc
    · exact .inr ⟨w, List.mem_cons_self, hc⟩
    rcases List.mem_cons.1 hc with rfl | hc
    · exact .inl hblank
    · exact (ih hc).imp_right fun ⟨v, hv, hcv⟩ => ⟨v, List.mem_cons_of_mem w hv, hcv⟩

/-- **Words without blanks** are found again, however they are spaced. -/
theorem words_spaced {ws : List String} {line : String} (h : Spaced ws line.toList)
    (hplain : ∀ w ∈ ws, w ≠ "" ∧ ∀ c ∈ w.toList, isBlank c = false) : words line = ws := by
  unfold words
  generalize line.toList = cs at h
  have hkeep : ∀ w : String, w ≠ "" →
      ([w.toList].filter fun w => !w.isEmpty).map String.ofList = [w] := by
    intro w hw
    simp [hw]
  induction h with
  | none => rfl
  | blank hc _ ih =>
    rw [pieces_cons_separator hc]
    exact ih hplain
  | last w =>
    obtain ⟨hw, hblank⟩ := hplain w List.mem_cons_self
    rw [pieces_run hblank, hkeep w hw]
  | word w hc _ ih =>
    obtain ⟨hw, hblank⟩ := hplain w List.mem_cons_self
    rw [pieces_append hc, pieces_run hblank, List.filter_append, List.map_append, hkeep w hw,
      ih fun v hv => hplain v (List.mem_cons_of_mem w hv)]
    rfl

end ScheduleSearch.Text

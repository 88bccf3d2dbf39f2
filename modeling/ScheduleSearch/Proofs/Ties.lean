/-
  Entries of a ranking that tie.

  Entries tie if their scores are equal as numbers, or if both are no number.  A ranking is
  sorted by the order of the bits, where the two zeros differ: the positive one stands before
  the negative one.  So entries that tie keep the order in which they came in, but for the
  zeros.

  * `filter_sortBestFirst_iff`: sorting keeps the order of some of the entries exactly if they
    were in the order of the sort already;
  * `notAfter_iff_of_ties`: of entries that tie, only a negative zero may not stand before
    another entry, which is a positive zero;
  * **`sortBestFirst_stable_iff`**: a ranking is permuted, the numbers descend and a NaN is
    after all of them; all ties are kept exactly if no negative zero came in before a positive
    one.
-/
import ScheduleSearch.Proofs.Ranking

namespace ScheduleSearch

variable {x y z : RankedAction} {ranked : List RankedAction}

/-! ## Ties -/

/-- The scores are equal as numbers, or both are no number. -/
def RankedAction.ties (x y : RankedAction) : Bool :=
  x.score == y.score || x.score.isNaN && y.score.isNaN

/-- The score is one of the two zeros. -/
def RankedAction.isZero (x : RankedAction) : Bool :=
  x.score = 0 ∨ x.score = -0

/-- Entries that tie stand in the order in which they came in. -/
def KeepsTies (incoming outgoing : List RankedAction) : Prop :=
  ∀ x : RankedAction, outgoing.filter x.ties = incoming.filter x.ties

theorem ties_iff : x.ties y ↔
    x.score == y.score ∨ x.score.isNaN = true ∧ y.score.isNaN = true := by
  rw [RankedAction.ties, Bool.or_eq_true, Bool.and_eq_true]

theorem isZero_iff : x.isZero ↔ x.score = 0 ∨ x.score = -0 := by
  simp [RankedAction.isZero]

/-- Entries that tie with one entry tie with each other. -/
theorem ties_of_ties (hy : x.ties y) (hz : x.ties z) : y.ties z := by
  rw [ties_iff] at hy hz ⊢
  rcases hy with hxy | ⟨hx, hynan⟩ <;> rcases hz with hxz | ⟨hx', hznan⟩
  · obtain ⟨hx, hy⟩ := FloatOrder.not_isNaN_of_beq hxy
    obtain ⟨-, hz⟩ := FloatOrder.not_isNaN_of_beq hxz
    rw [FloatOrder.beq_iff hx hy] at hxy
    rw [FloatOrder.beq_iff hx hz] at hxz
    exact .inl ((FloatOrder.beq_iff hy hz).2 (hxy.symm.trans hxz))
  · rw [(FloatOrder.not_isNaN_of_beq hxy).1] at hx'
    cases hx'
  · rw [(FloatOrder.not_isNaN_of_beq hxz).1] at hx
    cases hx
  · exact .inr ⟨hynan, hznan⟩

/-- What ties with a zero is a zero. -/
theorem isZero_of_ties (h : x.ties y) (hy : y.isZero) : x.isZero := by
  rw [isZero_iff] at hy ⊢
  rcases ties_iff.1 h with hbeq | ⟨-, hnan⟩
  · rcases FloatOrder.eq_or_zeros_of_beq hbeq with heq | ⟨hx, -⟩
    · rwa [heq]
    · exact hx
  · rcases hy with hy | hy <;> rw [hy] at hnan <;> exact absurd hnan (by decide)

theorem ties_of_isZero (hx : x.isZero) (hy : y.isZero) : x.ties y := by
  rw [isZero_iff] at hx hy
  rw [ties_iff]
  left
  rcases hx with hx | hx <;> rcases hy with hy | hy <;> rw [hx, hy] <;> decide

/-- Of entries that tie, only a negative zero may not stand before another entry, which is a
    positive zero. -/
theorem notAfter_iff_of_ties (h : x.ties y) :
    x.notAfter y ↔ ¬(x.score = -0 ∧ y.score = 0) := by
  rw [notAfter_iff]
  rcases ties_iff.1 h with hbeq | ⟨-, hnan⟩
  · obtain ⟨hx, hy⟩ := FloatOrder.not_isNaN_of_beq hbeq
    simp only [hx, hy, Bool.false_eq_true, false_or, true_and]
    rcases FloatOrder.eq_or_zeros_of_beq hbeq with heq | ⟨hx | hx, hy | hy⟩
    · refine iff_of_true (by rw [heq]) ?_
      rintro ⟨hneg, hpos⟩
      rw [heq, hpos] at hneg
      exact absurd hneg (by decide)
    all_goals
      rw [hx, hy]
      decide
  · refine iff_of_true (.inl hnan) ?_
    rintro ⟨-, hpos⟩
    rw [hpos] at hnan
    exact absurd hnan (by decide)

/-! ## Sorting -/

/-- Sorting keeps the order of some of the entries exactly if they were in the order of the
    sort already. -/
theorem filter_sortBestFirst_iff (p : RankedAction → Bool) :
    (sortBestFirst ranked).filter p = ranked.filter p ↔
      (ranked.filter p).Pairwise fun x y => x.notAfter y := by
  constructor
  · intro h
    rw [← h]
    exact (List.pairwise_mergeSort notAfter_trans notAfter_total ranked).filter p
  · intro h
    -- in their order they are a part of the ranking, and it has no more entries of their kind
    have hsub : (ranked.filter p).Sublist (sortBestFirst ranked) :=
      List.sublist_mergeSort notAfter_trans notAfter_total h List.filter_sublist
    have hfilter := hsub.filter p
    simp only [List.filter_filter, Bool.and_self] at hfilter
    exact (hfilter.eq_of_length ((sortBestFirst_perm ranked).filter p).length_eq.symm).symm

/-- The entries that tie with `x` keep their order exactly if no negative zero among them came
    in before a positive one. -/
theorem filter_ties_iff : (sortBestFirst ranked).filter x.ties = ranked.filter x.ties ↔
    ranked.Pairwise fun y z => x.ties y → x.ties z → ¬(y.score = -0 ∧ z.score = 0) := by
  rw [filter_sortBestFirst_iff, List.pairwise_filter]
  constructor
  · exact fun h => h.imp fun hyz hy hz => (notAfter_iff_of_ties (ties_of_ties hy hz)).1 (hyz hy hz)
  · exact fun h => h.imp fun hyz hy hz => (notAfter_iff_of_ties (ties_of_ties hy hz)).2 (hyz hy hz)

/-- A list in which nothing else stands before an entry of a kind has those entries first. -/
theorem filter_append_filter_not {α : Type} {p : α → Bool} {xs : List α}
    (h : xs.Pairwise fun x y => p y → p x) :
    xs.filter p ++ xs.filter (fun x => !p x) = xs := by
  induction xs with
  | nil => rfl
  | cons x xs ih =>
    obtain ⟨hx, hrest⟩ := List.pairwise_cons.1 h
    by_cases hp : p x
    · simp [hp, ih hrest]
    · have hnone : ∀ y ∈ xs, ¬p y := fun y hy hpy => hp (hx y hy hpy)
      have hall : xs.filter (fun y => !p y) = xs :=
        List.filter_eq_self.2 fun y hy => by simp [hnone y hy]
      simp [hp, List.filter_eq_nil_iff.2 hnone, hall]

/-- The entries with one score keep their order. -/
theorem filter_score (v : Float) :
    (sortBestFirst ranked).filter (·.score = v) = ranked.filter (·.score = v) := by
  rw [filter_sortBestFirst_iff, List.pairwise_filter]
  refine List.pairwise_of_forall fun x y hx hy => ?_
  have hx : x.score = v := of_decide_eq_true hx
  have hy : y.score = v := of_decide_eq_true hy
  rw [notAfter_iff, hx, hy]
  cases v.isNaN <;> simp

/-- The positive zeros come out before the negative ones. -/
theorem filter_isZero : (sortBestFirst ranked).filter RankedAction.isZero =
    ranked.filter (·.score = 0) ++ ranked.filter (·.score = -0) := by
  have hsorted := (List.pairwise_mergeSort notAfter_trans notAfter_total ranked).filter
    RankedAction.isZero
  have hzeros : ((sortBestFirst ranked).filter RankedAction.isZero).Pairwise
      fun x y => decide (y.score = 0) → decide (x.score = 0) := by
    refine hsorted.imp_of_mem fun {x y} hx hy hxy => ?_
    have hxzero := (List.mem_filter.1 hx).2
    have hlate := (notAfter_iff_of_ties (ties_of_isZero hxzero (List.mem_filter.1 hy).2)).1 hxy
    rw [isZero_iff] at hxzero
    simp only [decide_eq_true_eq]
    exact fun hy => hxzero.resolve_right fun hx => hlate ⟨hx, hy⟩
  rw [← filter_append_filter_not hzeros, List.filter_filter, List.filter_filter,
    ← filter_score 0, ← filter_score (-0)]
  have hne : (-0 : Float) ≠ 0 := by decide
  congr 1 <;> refine List.filter_congr fun x _ => ?_
  · by_cases hx : x.score = 0 <;> simp [RankedAction.isZero, hx]
  · by_cases hx : x.score = 0 <;> simp [RankedAction.isZero, hx, hne.symm]

/-- **Rankings are sorted** into a permutation in which the numbers descend and a NaN is after
    all of them.  Entries that tie keep the order in which they came in, but for the zeros: the
    positive ones come out first.  So all ties are kept exactly if no negative zero came in
    before a positive one. -/
theorem sortBestFirst_stable_iff (ranked : List RankedAction) :
    (sortBestFirst ranked).Perm ranked ∧
      BestFirst (sortBestFirst ranked) ∧
      (∀ x : RankedAction, ¬x.isZero →
        (sortBestFirst ranked).filter x.ties = ranked.filter x.ties) ∧
      (sortBestFirst ranked).filter RankedAction.isZero =
        ranked.filter (·.score = 0) ++ ranked.filter (·.score = -0) ∧
      (KeepsTies ranked (sortBestFirst ranked) ↔
        ranked.Pairwise fun x y => ¬(x.score = -0 ∧ y.score = 0)) := by
  refine ⟨sortBestFirst_perm ranked, sortBestFirst_bestFirst ranked, ?_, filter_isZero, ?_⟩
  · intro x hx
    refine filter_ties_iff.2 (List.pairwise_of_forall fun y z hy _ hzeros => hx ?_)
    exact isZero_of_ties hy (isZero_iff.2 (.inr hzeros.1))
  · constructor
    · intro h
      refine (filter_ties_iff.1 (h ⟨"", 0⟩)).imp fun {x y} hxy hzeros => ?_
      have htie : ∀ z : RankedAction, z.isZero → RankedAction.ties ⟨"", 0⟩ z := fun z hz =>
        ties_of_isZero rfl hz
      exact hxy (htie x (isZero_iff.2 (.inr hzeros.1))) (htie y (isZero_iff.2 (.inl hzeros.2)))
        hzeros
    · exact fun h x => filter_ties_iff.2 (h.imp fun hyz _ _ => hyz)

/-- Among a NaN and both zeros, the actions with score 1 are kept in their order, and the zeros
    are not, since the negative one came in first. -/
theorem sortBestFirst_stable_iff_mixed :
    let ranked : List RankedAction :=
      [⟨"merge", 0 / 0⟩, ⟨"up", -0⟩, ⟨"swap_up", 1⟩, ⟨"down", 0⟩, ⟨"swap_down", 1⟩]
    ¬RankedAction.isZero ⟨"swap_up", 1⟩ ∧
      (sortBestFirst ranked).filter (RankedAction.ties ⟨"swap_up", 1⟩) =
        [⟨"swap_up", 1⟩, ⟨"swap_down", 1⟩] ∧
      ¬KeepsTies ranked (sortBestFirst ranked) := by
  intro ranked
  have hone : ¬RankedAction.isZero ⟨"swap_up", 1⟩ := by decide
  obtain ⟨-, -, hties, -, hiff⟩ := sortBestFirst_stable_iff ranked
  refine ⟨hone, (hties _ hone).trans rfl, fun h => ?_⟩
  have hup := (List.pairwise_cons.1 (List.pairwise_cons.1 (hiff.1 h)).2).1
  exact hup ⟨"down", 0⟩ (by simp) ⟨rfl, rfl⟩

/-- A negative zero is overtaken by a positive one that came in after it, though the two are
    equal as numbers. -/
theorem zero_overtakes :
    let ranked : List RankedAction := [⟨"up", -0⟩, ⟨"down", 0⟩]
    (sortBestFirst ranked).map (·.action) = ["down", "up"] ∧
      ¬KeepsTies ranked (sortBestFirst ranked) := by
  intro ranked
  have hsorted : sortBestFirst ranked = [⟨"down", 0⟩, ⟨"up", -0⟩] :=
    sortBestFirst_pair (by decide)
  refine ⟨by rw [hsorted]; rfl, fun h => ?_⟩
  have hfirst := congrArg (List.map (·.action)) (h ⟨"up", -0⟩)
  rw [hsorted] at hfirst
  exact absurd hfirst (by decide)

end ScheduleSearch

/-
  Counts out of range.

  A count below zero or above the depth limit is refused with an error that names it
  (`SearchConfig.Refuses`).

  * `runStrategy_refused`: a strategy that finds such a count before it starts leaves the
    run as it is;
  * `explore_asks`: whatever is explored, the evaluator is asked;
  * `beamBeam_late`: a search in two phases looks at the count of its second phase after
    the first one, so a bad count there comes to light when the evaluator was asked;
  * **`search_refused_iff`**: a request with a count out of range never gives a table, and
    is refused before any work exactly if it is not of that kind.
-/
import ScheduleSearch.Proofs.Safety
import ScheduleSearch.Proofs.Series

namespace ScheduleSearch

open Agent SearchM

/-- The error that refuses a count. -/
inductive SearchConfig.Refuses (c : SearchConfig) (count : Int) : SearchError → Prop
  | negative : count < 0 → c.Refuses count (.negativeDepth count)
  | exceeded : c.maxDepth < count → c.Refuses count (.depthBudgetExceeded count c.maxDepth)

/-- The strategy gets to work before it looks at all of its counts: a search in two phases
    does when the count of the first phase is in range. -/
def Strategy.FindsLate (c : SearchConfig) : Strategy → Prop
  | .beamBeam first _ => c.Allows first.steps
  | _ => False

namespace SearchM

variable {α ε : Type} {c : CheckedConfig} {count : Int} {r : Run α}

theorem depthOf_allowed (h : c.Allows count) : depthOf c count r = .ok count.toNat r := by
  have hle : count.toNat ≤ c.maxDepth := Int.toNat_le.2 h.2
  rw [depthOf, SearchConfig.checkedDepth, if_neg (Int.not_lt.2 h.1), if_pos hle]
  rfl

theorem depthOf_refused (h : ¬ c.Allows count) :
    ∃ e, c.Refuses count e ∧ depthOf c count r = .error e r := by
  unfold depthOf SearchConfig.checkedDepth
  by_cases hneg : count < 0
  · exact ⟨_, .negative hneg, by rw [if_pos hneg]; rfl⟩
  · have hgt : c.maxDepth < count :=
      Int.lt_of_not_ge fun hle => h ⟨Int.not_lt.1 hneg, hle⟩
    have hno : ¬ count.toNat ≤ c.maxDepth := fun hle => Int.not_le.2 hgt (Int.toNat_le.1 hle)
    exact ⟨_, .exceeded hgt, by rw [if_neg hneg, if_neg hno]; rfl⟩

variable [Agent α] [Evaluator ε α] {s : Setting ε} {a : α}

/-! ## Refused at once -/

omit [Agent α] [Evaluator ε α] in
theorem not_allows_both {count' : Int} (h : ∃ k ∈ [count, count'], ¬ c.Allows k) :
    ¬ (c.Allows count ∧ c.Allows count') := by
  rintro ⟨hcount, hcount'⟩
  obtain ⟨k, hk, hno⟩ := h
  rcases List.mem_pair.1 hk with rfl | rfl
  exacts [hno hcount, hno hcount']

theorem greedySearch_refused {p : GreedyParams}
    (h : ¬ (c.Allows p.steps ∧ c.Allows p.lookahead)) :
    ∃ count ∈ [p.steps, p.lookahead], ∃ e, c.Refuses count e ∧
      greedySearch s c a p r = .error e r := by
  by_cases hsteps : c.Allows p.steps
  · obtain ⟨e, he, hd⟩ := depthOf_refused (r := r) fun hla => h ⟨hsteps, hla⟩
    refine ⟨_, by simp, e, he, ?_⟩
    rw [greedySearch, bind_of_ok (depthOf_allowed hsteps), bind_of_error hd]
  · obtain ⟨e, he, hd⟩ := depthOf_refused (r := r) hsteps
    exact ⟨_, by simp, e, he, bind_of_error hd⟩

theorem beamDfs_refused {p : BeamParams} (h : ¬ c.Allows p.steps) :
    ∃ e, c.Refuses p.steps e ∧ beamDfs s c a p r = .error e r := by
  obtain ⟨e, he, hd⟩ := depthOf_refused (r := r) h
  exact ⟨e, he, bind_of_error hd⟩

/-- **Refused before any work**: a strategy that does not find a bad count late leaves the
    run as it is. -/
theorem runStrategy_refused {st : Strategy} (hbad : ∃ count ∈ st.counts, ¬ c.Allows count)
    (hearly : ¬ st.FindsLate c.toSearchConfig) :
    ∃ count ∈ st.counts, ∃ e, c.Refuses count e ∧ runStrategy s c a st r = .error e r := by
  cases st with
  | greedy p => exact greedySearch_refused (not_allows_both hbad)
  | greedyWalks walks p =>
    -- the first walk, with the seed of the request, is refused
    obtain ⟨walks', hw⟩ : ∃ k, max walks 1 = k + 1 := ⟨max walks 1 - 1, by omega⟩
    obtain ⟨count, hmem, e, he, hrun⟩ := greedySearch_refused (s := s)
      (c := c.withSeed (c.seed + (0 : Nat).toUInt64)) (a := a) (p := p) (r := r)
      (not_allows_both (c := c.withSeed _) hbad)
    refine ⟨count, hmem, e, by cases he <;> constructor <;> assumption, ?_⟩
    show greedyWalksFrom s c a p (max walks 1) 0 none r = _
    rw [hw, greedyWalksFrom, bind_of_error hrun]
  | beamDfs p =>
    obtain ⟨e, he, hrun⟩ := beamDfs_refused (s := s) (a := a) (r := r)
      (by simpa [Strategy.counts] using hbad)
    exact ⟨_, by simp [Strategy.counts], e, he, hrun⟩
  | beamBfs p =>
    have hno : ¬ c.Allows p.steps := by simpa [Strategy.counts] using hbad
    obtain ⟨e, he, hd⟩ := depthOf_refused (r := r) hno
    exact ⟨_, by simp [Strategy.counts], e, he, bind_of_error hd⟩
  | beamBeam first second =>
    obtain ⟨e, he, hrun⟩ := beamDfs_refused (s := s) (c := c.withTimeout (c.timeout.divide 2))
      (a := a) (p := first.params) (r := r) hearly
    exact ⟨first.steps, by simp [Strategy.counts], e, by cases he <;> constructor <;> assumption,
      bind_of_error hrun⟩
  | random p =>
    have hno : ¬ c.Allows p.steps := by simpa [Strategy.counts] using hbad
    obtain ⟨e, he, hd⟩ := depthOf_refused (r := r) hno
    exact ⟨_, by simp [Strategy.counts], e, he, bind_of_error hd⟩

/-! ## Refused late -/

/-- However the computation ends, the evaluator was asked for a score. -/
def Asks {β : Type} (x : SearchM α β) (r : Run α) : Prop :=
  Ends x r (fun _ r' => r.trace.scored.size < r'.trace.scored.size)
    (fun _ r' => r.trace.scored.size < r'.trace.scored.size)

/-- Whatever is explored, the evaluator is asked. -/
theorem explore_asks {p : ExpandParams} (depth : Nat) {b : α} : Asks (explore s p depth b) r := by
  have hvisit {b : α} {r : Run α} : Asks (visit s p b) r := by
    refine (visit_ends s p b).imp ?_ ?_
    · rintro _ r' ⟨x, _, _, _, -, -, hpush, -⟩
      simp [hpush]
    · rintro e r' ⟨-, ⟨answer, hpush⟩, -⟩
      simp [hpush]
  exact explore_rule (P := fun _ _ => True)
    (I := fun r' => r.trace.scored.size < r'.trace.scored.size)
    (fun h hq => hq.scored ▸ h) (fun h => h)
    (fun _ h => hvisit.imp (fun _ _ h' => h.trans h') fun _ _ h' => h.trans h')
    (fun _ _ h => ⟨trivial, h⟩) depth trivial hvisit

/-- A depth-first beam with a count in range asks the evaluator. -/
theorem beamDfs_asks {p : BeamParams} (h : c.Allows p.steps) : Asks (beamDfs s c a p) r := by
  refine beamDfs_rule (P := fun r' => r.trace.scored.size < r'.trace.scored.size)
    (fun hno => absurd h hno) (fun hd start k r₁ hf => ?_) fun start r₂ h₂ => ?_
  · refine (expand_ends hd (explore_asks p.steps.toNat)).imp (fun _ r₂ h₂ => ?_) fun _ r₂ h₂ => ?_
    · rw [← hf.scored]
      exact h₂.1
    · rw [← hf.scored]
      exact h₂
  · refine finish_rule (fun h hq => by rwa [hq.scored]) ?_
    unfold Ends SearchM.bestPath
    cases r₂.graph.bestPath <;> exact h₂

/-- **A bad count of the second phase** is found after the first phase: there is no table,
    but the evaluator was asked. -/
theorem beamBeam_late {first second : BeamPhase} (hfirst : c.Allows first.steps)
    (hsecond : ¬ c.Allows second.steps) :
    Ends (beamBeam s c a first second) r (fun _ _ => False)
      (fun _ r' => r.trace.scored.size < r'.trace.scored.size) := by
  unfold beamBeam
  dsimp only
  refine Ends.bind (beamDfs_asks (c := c.withTimeout (c.timeout.divide 2)) (p := first.params)
    hfirst) fun phase r₁ h₁ => ?_
  refine Ends.bind ((replayed_ends (forget a) phase.path).imp_error ?_) ?_
  · rintro e _ ⟨rfl, -⟩
    exact h₁
  rintro mid _ ⟨rfl, -⟩
  refine Ends.bind (report_ends _) fun _ r₂ hq₂ => ?_
  obtain ⟨e, -, hrun⟩ := beamDfs_refused (s := s) (c := c.withTimeout (c.timeout.divide 2))
    (a := mid) (p := second.params) (r := r₂) hsecond
  have hlog : r.trace.scored.size < r₂.trace.scored.size := hq₂.scored ▸ h₁
  unfold Ends
  rwa [bind_of_error hrun]

end SearchM

/-! ## Requests -/

variable {α ε : Type} [Agent α] [Evaluator ε α] {s : Setting ε} {a : α}

section
variable {q : SearchRequest} {base : SearchConfig} {t : Trace α} (hbase : base.Valid)
  (hbad : ∃ count ∈ q.strategy.counts, ¬ base.Allows count)
include hbase

/-- A valid request reports itself, and then runs its strategy. -/
theorem runRequest_eq (q : SearchRequest) (t : Trace α) : ∃ (c : CheckedConfig) (event : Event),
    c.maxDepth = base.maxDepth ∧ runRequest s a q base ⟨.empty base.seed, t⟩ =
      runStrategy s c a q.strategy ⟨.empty base.seed, t.report event⟩ := by
  obtain ⟨c, hc, hmax⟩ := q.check_effectiveConfig hbase
  exact ⟨c, _, hmax, (bind_of_ok rfl).trans (by rw [hc]; rfl)⟩

include hbad

theorem search_refused (hearly : ¬ q.strategy.FindsLate base) :
    ∃ count ∈ q.strategy.counts, ∃ e, base.Refuses count e ∧
      (search s a q base t).1 = .error e ∧ (search s a q base t).2.scored = t.scored ∧
      (search s a q base t).2.rankings = t.rankings := by
  obtain ⟨c, event, hmax, hrun⟩ := runRequest_eq (s := s) (a := a) hbase q t
  have hbad' : ∃ count ∈ q.strategy.counts, ¬ c.Allows count := by
    simpa only [SearchConfig.Allows, hmax] using hbad
  have hearly' : ¬ q.strategy.FindsLate c.toSearchConfig := by
    simpa only [Strategy.FindsLate, SearchConfig.Allows, hmax] using hearly
  obtain ⟨count, hmem, e, he, hst⟩ := runStrategy_refused (s := s) (a := a)
    (r := ⟨.empty base.seed, t.report event⟩) hbad' hearly'
  refine ⟨count, hmem, e, ?_, ?_⟩
  · cases he with
    | negative h => exact .negative h
    | exceeded h => rw [hmax] at h ⊢; exact .exceeded h
  · rw [search, EStateM.run, hrun, hst]
    exact ⟨rfl, rfl, rfl⟩

theorem search_late (hlate : q.strategy.FindsLate base) :
    (∃ e, (search s a q base t).1 = .error e) ∧
      t.scored.size < (search s a q base t).2.scored.size := by
  obtain ⟨c, event, hmax, hrun⟩ := runRequest_eq (s := s) (a := a) hbase q t
  obtain ⟨first, second, hst⟩ : ∃ first second, q.strategy = .beamBeam first second := by
    cases hst : q.strategy with
    | beamBeam first second => exact ⟨first, second, rfl⟩
    | _ => rw [hst] at hlate; exact hlate.elim
  rw [hst] at hlate hbad hrun
  have hfirst : c.Allows first.steps := ⟨hlate.1, hmax ▸ hlate.2⟩
  have hsecond : ¬ c.Allows second.steps := fun h => by
    simp only [SearchConfig.Allows, ← hmax] at hbad
    exact not_allows_both hbad ⟨hfirst, h⟩
  have hends := beamBeam_late (s := s) (a := a) (r := ⟨.empty base.seed, t.report event⟩) hfirst
    hsecond
  rcases hends.result with ⟨_, _, -, h⟩ | ⟨e, r', he, hasked⟩
  · exact h.elim
  · have hst : runStrategy s c a (.beamBeam first second) ⟨.empty base.seed, t.report event⟩ =
        .error e r' := he
    rw [search, EStateM.run, hrun, hst]
    exact ⟨⟨e, rfl⟩, hasked⟩

/-- **Refusal**: a request with a count out of range gives no table.  It is refused for such
    a count, before the evaluator is asked for a score or a ranking, exactly if it is not a
    search in two phases that finds the count of its second phase late. -/
theorem search_refused_iff :
    (∃ e, (search s a q base t).1 = .error e) ∧
      ((∃ count ∈ q.strategy.counts, ∃ e, base.Refuses count e ∧
          (search s a q base t).1 = .error e ∧ (search s a q base t).2.scored = t.scored ∧
          (search s a q base t).2.rankings = t.rankings) ↔
        ¬ q.strategy.FindsLate base) := by
  by_cases hlate : q.strategy.FindsLate base
  · obtain ⟨herror, hasked⟩ := search_late (s := s) (a := a) (t := t) hbase hbad hlate
    refine ⟨herror, fun ⟨count, _, e, _, _, hlog, _⟩ => ?_, fun h => absurd hlate h⟩
    rw [hlog] at hasked
    exact absurd hasked (Nat.lt_irrefl _)
  · have hrefused := search_refused (s := s) (a := a) (t := t) hbase hbad hlate
    refine ⟨?_, fun _ => hlate, fun _ => hrefused⟩
    obtain ⟨-, -, e, -, herror, -⟩ := hrefused
    exact ⟨e, herror⟩

end

/-- A negative lookahead, which is looked at after a good step count. -/
theorem search_refused_lookahead :
    ∃ e, SearchConfig.Refuses {} (-1) e ∧
      (search ⟨UpDownEvaluator.mk, ⟨id, 0⟩⟩ UpDown.start ⟨.greedy ⟨2, -1, 2, .loopNest⟩, {}⟩ {}
        .empty).1 = .error e ∧
      (search ⟨UpDownEvaluator.mk, ⟨id, 0⟩⟩ UpDown.start ⟨.greedy ⟨2, -1, 2, .loopNest⟩, {}⟩ {}
        .empty).2.scored = #[] := by
  have hbad : ∃ count ∈ [(2 : Int), -1], ¬ SearchConfig.Allows {} count :=
    ⟨-1, by simp, fun h => absurd h.1 (by decide)⟩
  obtain ⟨count, hmem, e, he, herror, hlog, -⟩ := (search_refused_iff
    (s := ⟨UpDownEvaluator.mk, ⟨id, 0⟩⟩) (a := UpDown.start) (t := .empty)
    (q := ⟨.greedy ⟨2, -1, 2, .loopNest⟩, {}⟩) (by decide) hbad).2.2 id
  refine ⟨e, ?_, herror, hlog⟩
  rcases List.mem_pair.1 hmem with rfl | rfl
  · cases he with
    | negative h => exact absurd h (by decide)
    | exceeded h => exact absurd h (by decide)
  · exact he

/-- The second phase of this search has a negative count.  Two states are scored before that
    is found, and an evaluator that fails at the first of them hides it. -/
theorem second_count_late :
    let q : SearchRequest := ⟨.beamBeam ⟨1, 1, .loopNest⟩ ⟨-1, 1, .loopNest⟩, {}⟩
    let outcome := fun turn => search ⟨Faltering.mk turn, ⟨id, 0⟩⟩ UpDown.start q {} .empty
    (-1) ∈ q.strategy.counts ∧ ((outcome 2).1 matches .error (.negativeDepth _)) ∧
      (outcome 2).2.scored.size = 2 ∧ ((outcome 0).1 matches .error (.eval _)) := by
  decide +kernel

end ScheduleSearch

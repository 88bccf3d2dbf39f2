/-
  No strategy invents an error.

  **`search_safe`**: a request whose counts are in range gives a table, unless the
  evaluator fails or returns a score that is none.
-/
import ScheduleSearch.Proofs.Strategies

namespace ScheduleSearch

open Agent SearchM

variable {α ε : Type} [Agent α] [Evaluator ε α] {s : Setting ε} {a : α}

/-- A valid base configuration is valid under all options. -/
theorem SearchRequest.check_effectiveConfig {q : SearchRequest} {base : SearchConfig}
    (h : base.Valid) :
    ∃ c, (q.effectiveConfig base).check = .ok c ∧ c.maxDepth = base.maxDepth := by
  have hv : (q.effectiveConfig base).Valid := h
  unfold SearchConfig.check
  rw [dif_pos hv]
  exact ⟨_, rfl, rfl⟩

/-- **No invented errors**: the only error of a request with counts in range is one
    that the evaluator returned, or that it returned no finite score. -/
theorem search_safe {q : SearchRequest} {base : SearchConfig} {t : Trace α}
    (hbase : base.Valid) (hw : World a q.strategy.budget)
    (hA : Accepting s.evaluator a q.strategy.budget)
    (hcounts : ∀ k ∈ q.strategy.counts, 0 ≤ k ∧ k ≤ base.maxDepth) :
    (∃ table, (search s a q base t).1 = .ok table) ∨
      ∃ err, (search s a q base t).1 = .error (.eval err) ∧
        Blames s.evaluator (Within a q.strategy.budget) (search s a q base t).2 (.eval err) := by
  obtain ⟨c, hc, hmax⟩ := q.check_effectiveConfig hbase
  have hends : Ends (runRequest s a q base) ⟨.empty base.seed, t⟩ (fun _ _ => True)
      (fun e r' => Blames s.evaluator (Within a q.strategy.budget) r'.trace e) := by
    unfold runRequest
    refine Ends.bind (report_ends _) fun _ r₁ _ => ?_
    refine Ends.bind (P := fun c' _ => c' = c) (ends_ofExcept.2 ⟨fun v hv => ?_, fun e he => ?_⟩) ?_
    · exact (Except.ok.inj (hc.symm.trans hv)).symm
    · exact absurd (hc.symm.trans he) (by simp)
    · rintro _ r₂ rfl
      refine (runStrategy_ends q.strategy hw).imp (fun _ _ _ => trivial) fun e r' he => he ?_ hA
      intro k hk
      exact ⟨(hcounts k hk).1, by rw [hmax]; exact (hcounts k hk).2⟩
  unfold search
  rcases hends.result with ⟨table, r', hrun, -⟩ | ⟨e, r', hrun, he⟩
  · refine .inl ⟨table, ?_⟩
    simp only [EStateM.run, hrun]
  · have heval : ∃ err, e = .eval err := by
      cases he with
      | score => exact ⟨_, rfl⟩
      | nonFinite => exact ⟨_, rfl⟩
      | rank => exact ⟨_, rfl⟩
    obtain ⟨err, rfl⟩ := heval
    refine .inr ⟨err, ?_⟩
    simp only [EStateM.run, hrun]
    exact ⟨trivial, he⟩

/-- A greedy search of the up/down world that looks ahead by one action. -/
theorem search_safe_upDown :
    ∃ table, (search ⟨UpDownEvaluator.mk, ⟨id, 0⟩⟩ UpDown.start
      ⟨.greedy ⟨2, 1, 2, .loopNest⟩, {}⟩ {} .empty).1 = .ok table := by
  refine (search_safe (by decide) UpDown.world UpDown.accepting ?_).resolve_right ?_
  · intro k hk
    rcases List.mem_pair.1 hk with rfl | rfl <;> exact ⟨by decide, by decide⟩
  · rintro ⟨err, -, h⟩
    exact UpDown.not_blames h

end ScheduleSearch

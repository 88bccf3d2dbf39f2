/-
  What a search does not look at.

  A search that draws its candidates has an oracle that it never asks, one that ranks
  them a sampler that it never draws from, and a debug flag only adds a report.  Two
  searches that differ in such a knob run in step (`Pairs`), and have the same outcome.
  Their clocks may differ as well, as long as they make no difference to the budget.

  * `Clock.Alike`: the clocks are the same, whatever the budget, or the time is never up,
    or there is none from the start; `Clock.InStep` is what a search needs of them;
  * `greedySearch_pairs`, `beamDfs_pairs`, `beamBfs_pairs`, `beamBeam_pairs`,
    `randomSearch_pairs`: the strategies, side by side;
  * `outcome_search_eq`: the outcome of two requests that differ in such knobs only;
  * **`search_unused_knobs`**: which knobs these are.
-/
import ScheduleSearch.Proofs.Levels
import ScheduleSearch.Proofs.Lockstep
import ScheduleSearch.Search.Request

namespace ScheduleSearch

open SearchM

/-! ## Clocks -/

namespace Clock

/-- Two clocks that make no difference to a search with this timeout, whose rounds get
    `share` of it. -/
inductive Alike (timeout share : Duration) (k k' : Clock) : Prop
  | same : k = k' → Alike timeout share k k'
  /-- the time is never up -/
  | ample : k.Keeps share → k'.Keeps share → k.walks = k'.walks → Alike timeout share k k'
  /-- there is no time, so a search only asks whether the clocks have moved, and they do so
      at the same readings -/
  | none : timeout.nanoseconds = 0 →
      (∀ i j, k.reading i ≤ k.reading j ↔ k'.reading i ≤ k'.reading j) →
      (∀ i, (deadlineAfter (k.reading i) timeout).isSome ∧
        (deadlineAfter (k'.reading i) timeout).isSome) →
      k.walks = k'.walks → Alike timeout share k k'

/-- Two clocks that decide alike whether time is up. -/
structure InStep (tied : Prop) (timeout share : Duration) (k k' : Clock) : Prop where
  walks : k.walks = k'.walks
  due {t t' : Nat} : k.Reads tied k' t t' →
    k.Due tied k' (deadlineAfter t share) (deadlineAfter t' share)
  late {t t' u u' : Nat} : k.Reads tied k' t t' → k.Reads tied k' u u' →
    (timeout.nanoseconds < u - t ↔ timeout.nanoseconds < u' - t')
  spent {t t' u u' : Nat} : k.Reads tied k' t t' → k.Reads tied k' u u' →
    (timeout.nanoseconds ≤ u - t ↔ timeout.nanoseconds ≤ u' - t')
  /-- what is left of the timeout, if `share` is at most half of it -/
  left {t t' u u' v v' : Nat} : 2 * share.nanoseconds ≤ timeout.nanoseconds →
    k.Reads tied k' t t' → k.Reads tied k' u u' → k.Reads tied k' v v' →
    k.Due tied k' (deadlineAfter v (timeout.minus ⟨u - t⟩))
      (deadlineAfter v' (timeout.minus ⟨u' - t'⟩))

variable {k k' : Clock} {timeout share budget : Duration} {t u d : Nat} {tied : Prop}

theorem eq_add_of_deadlineAfter (h : deadlineAfter t budget = some d) :
    d = t + budget.nanoseconds := by
  unfold deadlineAfter at h
  dsimp only at h
  split at h
  · exact (Option.some.inj h).symm
  · cases h

/-- A share of the time or more does not run out. -/
theorem Keeps.not_passes (h : k.Keeps share) (hle : share.nanoseconds ≤ budget.nanoseconds)
    (i j : Nat) : ¬ k.Passes (deadlineAfter (k.reading i) budget) j := by
  rintro ⟨d, hd, hpass⟩
  have := eq_add_of_deadlineAfter hd
  have := h i j
  omega

theorem inStep_same : k.InStep True timeout share k := by
  have hreads : ∀ {t t'}, k.Reads True k t t' → t = t' := by
    rintro _ _ ⟨i, i', rfl, rfl, h⟩
    rw [h trivial]
  have hdue : ∀ d, k.Due True k d d := fun d => ⟨fun hi => by rw [hi trivial], fun _ => .rfl⟩
  refine ⟨rfl, fun ht => ?_, fun ht hu => ?_, fun ht hu => ?_, fun _ ht hu hv => ?_⟩
  · rw [hreads ht]
    exact hdue _
  · rw [hreads ht, hreads hu]
  · rw [hreads ht, hreads hu]
  · rw [hreads ht, hreads hu, hreads hv]
    exact hdue _

theorem inStep_ample (hle : share.nanoseconds ≤ timeout.nanoseconds) (h : k.Keeps share)
    (h' : k'.Keeps share) (hw : k.walks = k'.walks) : k.InStep False timeout share k' := by
  have hdue : ∀ {i i'} {b b' : Duration}, share.nanoseconds ≤ b.nanoseconds →
      share.nanoseconds ≤ b'.nanoseconds →
      k.Due False k' (deadlineAfter (k.reading i) b) (deadlineAfter (k'.reading i') b') :=
    fun hb hb' => ⟨fun _ => iff_of_false (h.not_passes hb _ _) (h'.not_passes hb' _ _),
      fun hf => hf.elim⟩
  refine ⟨hw, ?_, ?_, ?_, ?_⟩
  · rintro _ _ ⟨i, i', rfl, rfl, -⟩
    exact hdue le_rfl le_rfl
  · rintro _ _ _ _ ⟨i, i', rfl, rfl, -⟩ ⟨j, j', rfl, rfl, -⟩
    have := h i j
    have := h' i' j'
    omega
  · rintro _ _ _ _ ⟨i, i', rfl, rfl, -⟩ ⟨j, j', rfl, rfl, -⟩
    have := h i j
    have := h' i' j'
    omega
  · rintro _ _ _ _ _ _ hhalf ⟨i, i', rfl, rfl, -⟩ ⟨j, j', rfl, rfl, -⟩ ⟨l, l', rfl, rfl, -⟩
    have := h i j
    have := h' i' j'
    refine hdue ?_ ?_
    · show share.nanoseconds ≤ timeout.nanoseconds - (k.reading j - k.reading i)
      omega
    · show share.nanoseconds ≤ timeout.nanoseconds - (k'.reading j' - k'.reading i')
      omega

/-- Without time, a deadline is the reading that it was set at. -/
theorem deadlineAfter_zero (h : (deadlineAfter t timeout).isSome) (h0 : timeout.nanoseconds = 0)
    (hb : budget.nanoseconds = 0) : deadlineAfter t budget = some t := by
  have heq : deadlineAfter t budget = deadlineAfter t timeout := by
    unfold deadlineAfter
    rw [hb, h0]
  obtain ⟨d, hd⟩ := Option.isSome_iff_exists.1 h
  rw [heq, hd, eq_add_of_deadlineAfter hd, h0, Nat.add_zero]

theorem inStep_none (hle : share.nanoseconds ≤ timeout.nanoseconds) (h0 : timeout.nanoseconds = 0)
    (hord : ∀ i j, k.reading i ≤ k.reading j ↔ k'.reading i ≤ k'.reading j)
    (hsome : ∀ i, (deadlineAfter (k.reading i) timeout).isSome ∧
      (deadlineAfter (k'.reading i) timeout).isSome)
    (hw : k.walks = k'.walks) : k.InStep True timeout share k' := by
  have hdue : ∀ i {b b' : Duration}, b.nanoseconds = 0 → b'.nanoseconds = 0 →
      k.Due True k' (deadlineAfter (k.reading i) b) (deadlineAfter (k'.reading i) b') :=
    fun i b b' hb hb' => by
      rw [deadlineAfter_zero (hsome i).1 h0 hb, deadlineAfter_zero (hsome i).2 h0 hb']
      refine ⟨fun hi => ?_, fun _ => by simp⟩
      obtain rfl := hi trivial
      simpa only [Passes, Option.some.injEq, exists_eq_left'] using hord i _
  have hreads : ∀ {t t'}, k.Reads True k' t t' → ∃ i, t = k.reading i ∧ t' = k'.reading i := by
    rintro _ _ ⟨i, i', rfl, rfl, h⟩
    exact ⟨i, rfl, by rw [h trivial]⟩
  refine ⟨hw, fun ht => ?_, fun ht hu => ?_, fun ht hu => ?_, fun _ ht hu hv => ?_⟩
  · obtain ⟨i, rfl, rfl⟩ := hreads ht
    exact hdue i (by omega) (by omega)
  · obtain ⟨i, rfl, rfl⟩ := hreads ht
    obtain ⟨j, rfl, rfl⟩ := hreads hu
    have := hord j i
    omega
  · omega
  · obtain ⟨l, rfl, rfl⟩ := hreads hv
    refine hdue l ?_ ?_
    · show timeout.nanoseconds - _ = 0
      omega
    · show timeout.nanoseconds - _ = 0
      omega

/-- Clocks that make no difference decide alike. -/
theorem Alike.inStep (h : k.Alike timeout share k')
    (hle : share.nanoseconds ≤ timeout.nanoseconds) : ∃ tied, k.InStep tied timeout share k' := by
  cases h with
  | same h =>
    subst h
    exact ⟨True, inStep_same⟩
  | ample h h' hw => exact ⟨False, inStep_ample hle h h' hw⟩
  | none h0 hord hsome hw => exact ⟨True, inStep_none hle h0 hord hsome hw⟩

/-- A part of no time is no time. -/
theorem Alike.divide (h : k.Alike timeout share k') (n : Nat) :
    k.Alike (timeout.divide n) share k' := by
  cases h with
  | same h => exact .same h
  | ample h h' hw => exact .ample h h' hw
  | none h0 hord hsome hw =>
    have hzero : (timeout.divide n).nanoseconds = 0 := by
      show timeout.nanoseconds / n = 0
      rw [h0, Nat.zero_div]
    refine .none hzero hord (fun i => ?_) hw
    rw [deadlineAfter_zero (hsome i).1 h0 hzero, deadlineAfter_zero (hsome i).2 h0 hzero]
    exact ⟨rfl, rfl⟩

end Clock

/-! ## Strategies -/

/-- The same configuration but for the debug flag and, if candidates are ranked, the
    seed. -/
structure SearchConfig.Alike (ranked : Bool) (c c' : SearchConfig) : Prop where
  timeout : c.timeout = c'.timeout
  maxDepth : c.maxDepth = c'.maxDepth
  seed : ranked = false → c.seed = c'.seed

theorem SearchConfig.Alike.roundBudget {ranked : Bool} {c c' : SearchConfig}
    (h : c.Alike ranked c') (rounds : Nat) : c'.roundBudget rounds = c.roundBudget rounds := by
  unfold SearchConfig.roundBudget
  rw [h.timeout]

section Strategies

variable {α ε ε' : Type} [Agent α] [Evaluator ε α] [Evaluator ε' α] {s : Setting ε}
  {s' : Setting ε'} {c c' : CheckedConfig} {ranked : Bool} {tied : Prop} {r r' : Run α}
  {mode : EvalMode}

omit [Agent α] in
theorem depthOf_pairs {I : Run α → Run α → Prop} (hc : c.Alike ranked c'.toSearchConfig)
    (n : Int) (h : I r r') :
    Pairs (depthOf c n) (depthOf c' n) r r' fun d d' q q' => (d = n.toNat ∧ d' = d) ∧ I q q' := by
  have hdepth : (depthOf c' n : SearchM α Nat) = depthOf c n := by
    unfold depthOf SearchConfig.checkedDepth
    rw [hc.maxDepth]
  rw [hdepth]
  refine pairs_ofExcept fun d hd => ⟨⟨?_, rfl⟩, h⟩
  unfold SearchConfig.checkedDepth at hd
  split at hd
  · cases hd
  split at hd
  · exact (Except.ok.inj hd).symm
  · cases hd

section

variable (hev : Agree α ranked s.evaluator s'.evaluator) (hc : c.Alike ranked c'.toSearchConfig)
include hev hc

theorem beamDfs_pairs {p : BeamParams} (hp : p.ranking = ranked)
    (hm : ranked = true → p.mode = mode) (hk : s.clock.InStep tied c.timeout c.timeout s'.clock)
    (a : α) (h : Abreast (fun _ _ => True) tied r r') :
    Pairs (beamDfs s c a p) (beamDfs s' c' a { p with mode }) r r' (Done tied) := by
  subst hp
  unfold beamDfs
  rw [← hc.timeout]
  refine (depthOf_pairs hc p.steps h).bind ?_
  rintro _ _ q q' ⟨⟨rfl, rfl⟩, hq⟩
  refine (now_pairs hq).bind fun start start' r₁ r₁' ⟨_, h₁⟩ => ?_
  refine (report_pairs h₁ _ _).bind fun _ _ r₂ r₂' h₂ => ?_
  refine (freshGraph_pairs hc.seed h₂).bind fun _ _ r₃ r₃' h₃ => ?_
  refine (roundParams_pairs hm hk.due h₃).bind fun q q' r₄ r₄' ⟨hqq, h₄⟩ => ?_
  refine (expand_pairs hev hqq (Agent.forget a) _ h₄).discard.bind ?_
  rintro _ _ r₅ r₅' ⟨_, _, _, h₅⟩
  exact finish_pairs h₅

/-- Both go on from the same leaves, and stop after the same round. -/
theorem beamRounds_pairs {p : BeamParams} (hp : p.ranking = ranked)
    (hm : ranked = true → p.mode = mode) {steps start start' : Nat}
    (hk : s.clock.InStep tied c.timeout (c.roundBudget steps) s'.clock)
    (hstart : s.clock.Reads tied s'.clock start start') (root : α) (left : Nat) :
    ∀ {r r' : Run α} (frontier : List α), Abreast (Graph.Alike ranked) tied r r' →
      Pairs (beamRounds s c root p start steps left frontier)
        (beamRounds s' c' root { p with mode } start' steps left frontier) r r'
        fun _ _ q q' => Abreast (Graph.Alike ranked) tied q q' := by
  subst hp
  have hbudget := hc.roundBudget steps
  induction left with
  | zero => exact fun _ h => h
  | succ left ih =>
    intro r r' frontier h
    unfold beamRounds
    rw [hbudget, ← hc.timeout]
    refine (roundParams_pairs hm hk.due h).bind fun q q' r₁ r₁' ⟨hqq, h₁⟩ => ?_
    refine (pairs_forM (fun b _ q q' hq => ?_) h₁).bind fun _ _ r₂ r₂' h₂ => ?_
    · exact (expand_pairs hev hqq b 1 hq).discard.imp fun _ _ _ _ ⟨_, _, _, hx⟩ => hx
    refine pairs_graph_bind.2 ?_
    -- both replay the recorded actions of the same leaves
    have hmap : ∀ g : Graph, (g.leaves.mapM fun n => replayed root n.actions : SearchM α (List α)) =
        (g.leaves.map (·.actions)).mapM (replayed root) := fun g => by rw [List.mapM_map]; rfl
    rw [hmap, hmap, ← h₂.graph.leaves_actions]
    refine (pairs_mapM (I := Abreast (Graph.Alike p.ranking) tied)
      (fun _ _ q q' hq => pairs_ofExcept fun _ _ => ⟨rfl, hq⟩) h₂).bind ?_
    rintro next _ r₃ r₃' ⟨rfl, h₃⟩
    refine (report_pairs h₃ _ _).bind fun _ _ r₄ r₄' h₄ => ?_
    refine (elapsed_pairs h₄ start start').bind ?_
    rintro d d' r₅ r₅' ⟨⟨t, t', ht, hd, hd'⟩, h₅⟩
    rw [hd, hd']
    by_cases hlate : c.timeout.nanoseconds < t - start
    · rw [if_pos hlate, if_pos ((hk.late hstart ht).1 hlate)]
      exact report_pairs h₅ _ _
    · rw [if_neg hlate, if_neg fun h => hlate ((hk.late hstart ht).2 h)]
      exact ih next h₅

theorem beamBfs_pairs {p : BeamParams} (hp : p.ranking = ranked)
    (hm : ranked = true → p.mode = mode)
    (hk : s.clock.InStep tied c.timeout (c.roundBudget p.steps.toNat) s'.clock)
    (a : α) (h : Abreast (fun _ _ => True) tied r r') :
    Pairs (beamBfs s c a p) (beamBfs s' c' a { p with mode }) r r' (Done tied) := by
  subst hp
  unfold beamBfs
  refine (depthOf_pairs hc p.steps h).bind ?_
  rintro _ _ q q' ⟨⟨rfl, rfl⟩, hq⟩
  refine (now_pairs hq).bind fun start start' r₁ r₁' ⟨hstart, h₁⟩ => ?_
  refine (report_pairs h₁ _ _).bind fun _ _ r₂ r₂' h₂ => ?_
  refine (freshGraph_pairs hc.seed h₂).bind fun _ _ r₃ r₃' h₃ => ?_
  refine (beamRounds_pairs hev hc rfl hm hk hstart _ _ _ h₃).bind fun _ _ r₄ r₄' h₄ => ?_
  refine pairs_graph_bind.2 ?_
  rw [← h₄.graph.isEmpty]
  cases r₄.graph.isEmpty with
  | false => exact finish_pairs h₄
  | true =>
    rw [hc.roundBudget]
    refine (roundParams_pairs hm hk.due h₄).bind fun q q' r₅ r₅' ⟨hqq, h₅⟩ => ?_
    refine (expand_pairs hev hqq (Agent.forget a) 0 h₅).discard.bind ?_
    rintro _ _ r₆ r₆' ⟨_, _, _, h₆⟩
    exact finish_pairs h₆

/-- Each phase ranks. -/
theorem beamBeam_pairs (hr : ranked = true) {first second : BeamPhase}
    (hk : s.clock.InStep tied (c.timeout.divide 2) (c.timeout.divide 2) s'.clock)
    (a : α) (h : Abreast (fun _ _ => True) tied r r') :
    Pairs (beamBeam s c a first second) (beamBeam s' c' a first second) r r' (Done tied) := by
  subst hr
  have hhalf : (c.withTimeout (c.timeout.divide 2)).Alike true
      (c'.withTimeout (c'.timeout.divide 2)).toSearchConfig :=
    ⟨congrArg (Duration.divide · 2) hc.timeout, hc.maxDepth, fun h => by cases h⟩
  unfold beamBeam
  refine (beamDfs_pairs hev hhalf (p := first.params) rfl (fun _ => rfl) hk a h).bind ?_
  rintro t t' q q' ⟨ht, hq⟩
  rw [← ht.path]
  refine (pairs_ofExcept (Q := fun b b' q q' => b' = b ∧ Abreast (fun _ _ => True) tied q q')
    fun _ _ => ⟨rfl, hq⟩).bind ?_
  rintro midpoint _ r₁ r₁' ⟨rfl, h₁⟩
  refine (report_pairs h₁ _ _).bind fun _ _ r₂ r₂' h₂ => ?_
  refine (beamDfs_pairs hev hhalf (p := second.params) rfl (fun _ => rfl) hk _ h₂).bind ?_
  rintro next next' r₃ r₃' ⟨hnext, h₃⟩
  exact ⟨ht.concat hnext _ _, h₃⟩

end

section Drawn

variable (hev : Agree α false s.evaluator s'.evaluator) (hc : c.Alike false c'.toSearchConfig)
include hev hc

/-- Both commit the same actions, and stop after the same round. -/
theorem greedyRounds_pairs {p : GreedyParams} {steps lookahead start start' : Nat}
    (hk : s.clock.InStep tied c.timeout (c.roundBudget steps) s'.clock)
    (hstart : s.clock.Reads tied s'.clock start start') (left : Nat) :
    ∀ {r r' : Run α} (current : α), Abreast (Graph.Alike false) tied r r' →
      Pairs (greedyRounds s c p start steps lookahead left current)
        (greedyRounds s' c' { p with mode } start' steps lookahead left current) r r'
        (Both false tied) := by
  induction left with
  | zero => exact fun _ h => ⟨rfl, h⟩
  | succ left ih =>
    intro r r' current h
    unfold greedyRounds
    rw [hc.roundBudget, ← hc.timeout]
    refine (roundParams_pairs (fun h => by cases h) hk.due h).bind
      fun q q' r₁ r₁' ⟨hqq, h₁⟩ => ?_
    refine (expand_pairs hev hqq current _ h₁).bind ?_
    rintro suffix _ r₂ r₂' ⟨rfl, h₂⟩
    refine (report_pairs h₂ _ _).bind fun _ _ r₃ r₃' h₃ => ?_
    cases suffix with
    | nil => exact pairs_pure.2 ⟨rfl, h₃⟩
    | cons action suffix =>
      dsimp only
      split
      · exact pairs_ofExcept fun _ _ => ⟨rfl, h₃⟩
      refine (pairs_ofExcept (Q := Both false tied) fun _ _ => ⟨rfl, h₃⟩).bind ?_
      rintro next _ r₄ r₄' ⟨rfl, h₄⟩
      refine (elapsed_pairs h₄ start start').bind ?_
      rintro d d' r₅ r₅' ⟨⟨t, t', ht, hd, hd'⟩, h₅⟩
      rw [hd, hd']
      by_cases hlate : c.timeout.nanoseconds < t - start
      · rw [if_pos hlate, if_pos ((hk.late hstart ht).1 hlate)]
        exact (report_pairs h₅ _ _).bind fun _ _ _ _ h₆ => ⟨rfl, h₆⟩
      · rw [if_neg hlate, if_neg fun h => hlate ((hk.late hstart ht).2 h)]
        exact ih next h₅

theorem greedySearch_pairs {p : GreedyParams}
    (hk : s.clock.InStep tied c.timeout (c.roundBudget p.steps.toNat) s'.clock)
    (a : α) (h : Abreast (fun _ _ => True) tied r r') :
    Pairs (greedySearch s c a p) (greedySearch s' c' a { p with mode }) r r' (Done tied) := by
  unfold greedySearch
  refine (depthOf_pairs hc p.steps h).bind ?_
  rintro _ _ q q' ⟨⟨rfl, rfl⟩, hq⟩
  refine (depthOf_pairs hc p.lookahead hq).bind ?_
  rintro _ _ u u' ⟨⟨rfl, rfl⟩, hu⟩
  refine (now_pairs hu).bind fun start start' r₁ r₁' ⟨hstart, h₁⟩ => ?_
  refine (report_pairs h₁ _ _).bind fun _ _ r₂ r₂' h₂ => ?_
  refine (freshGraph_pairs hc.seed h₂).bind fun _ _ r₃ r₃' h₃ => ?_
  refine (greedyRounds_pairs hev hc hk hstart _ _ h₃).bind ?_
  rintro current _ r₄ r₄' ⟨rfl, h₄⟩
  refine pairs_graph_bind.2 ?_
  rw [← h₄.graph.isEmpty]
  cases r₄.graph.isEmpty with
  | false => exact finish_pairs h₄
  | true =>
    rw [hc.roundBudget]
    refine (roundParams_pairs (fun h => by cases h) hk.due h₄).bind
      fun q q' r₅ r₅' ⟨hqq, h₅⟩ => ?_
    refine (expand_pairs hev hqq current 0 h₅).discard.bind ?_
    rintro _ _ r₆ r₆' ⟨_, _, _, h₆⟩
    exact finish_pairs h₆

/-- The best tables so far are alike, so both keep the same walk. -/
theorem greedyWalksFrom_pairs {p : GreedyParams}
    (hk : s.clock.InStep tied c.timeout (c.roundBudget p.steps.toNat) s'.clock) (a : α) (n : Nat) :
    ∀ {r r' : Run α} {best best' : Option Table} (walk : Nat),
      Option.Rel Table.Alike best best' → Abreast (fun _ _ => True) tied r r' →
      Pairs (greedyWalksFrom s c a p n walk best) (greedyWalksFrom s' c' a { p with mode } n walk best')
        r r' (Done tied) := by
  induction n with
  | zero =>
    intro r r' best best' walk hbest h
    cases hbest with
    | none => exact pairs_throw
    | some ht => exact ⟨ht, h⟩
  | succ n ih =>
    intro r r' best best' walk hbest h
    unfold greedyWalksFrom
    have hseed : (c.withSeed (c.seed + walk.toUInt64)).Alike false
        (c'.withSeed (c'.seed + walk.toUInt64)).toSearchConfig :=
      ⟨hc.timeout, hc.maxDepth, fun _ => congrArg (· + walk.toUInt64) (hc.seed rfl)⟩
    refine (greedySearch_pairs hev hseed hk a h).bind ?_
    rintro t t' r₁ r₁' ⟨ht, h₁⟩
    refine (report_pairs h₁ _ _).bind fun _ _ r₂ r₂' h₂ => ?_
    have hreward : ∀ {t t' : Table}, t.Alike t' → walkReward t = walkReward t' := fun ht => by
      unfold walkReward
      rw [ht.finalReward?]
    refine ih (walk + 1) ?_ h₂
    cases hbest with
    | none => exact .some ht
    | some hb =>
      simp only [hreward hb, hreward ht]
      split
      · exact .some ht
      · exact .some hb

theorem greedyWalks_pairs {p : GreedyParams} {walks : Nat}
    (hk : s.clock.InStep tied c.timeout (c.roundBudget p.steps.toNat) s'.clock)
    (a : α) (h : Abreast (fun _ _ => True) tied r r') :
    Pairs (greedyWalks s c a walks p) (greedyWalks s' c' a walks { p with mode }) r r'
      (Done tied) :=
  greedyWalksFrom_pairs hev hc hk a _ 0 .none h

theorem randomWalks_pairs {p : RandomParams} {start start' : Nat} {share : Duration}
    (hhalf : 2 * share.nanoseconds ≤ c.timeout.nanoseconds)
    (hk : s.clock.InStep tied c.timeout share s'.clock)
    (hstart : s.clock.Reads tied s'.clock start start') (root : α) (steps more : Nat) :
    ∀ {r r' : Run α} (walks : Nat), Abreast (Graph.Alike false) tied r r' →
      Pairs (randomWalks s c root p start steps more walks)
        (randomWalks s' c' root { p with mode } start' steps more walks) r r'
        (Both false tied) := by
  -- a walk, and whatever comes after it
  have hwalk : ∀ {γ : Type} {Q : γ → γ → Run α → Run α → Prop} {f f' : Duration → SearchM α γ}
      {r r' : Run α}, Abreast (Graph.Alike false) tied r r' →
      (∀ d d' q q', (c.timeout.nanoseconds ≤ d.nanoseconds ↔
        c.timeout.nanoseconds ≤ d'.nanoseconds) → Abreast (Graph.Alike false) tied q q' →
        Pairs (f d) (f' d') q q' Q) →
      Pairs (do
          let settings ← roundParams s 1 p.mode false start (c.timeout.minus (← elapsed s start))
          discard (expand s settings root steps)
          f (← elapsed s start))
        (do
          let settings ← roundParams s' 1 mode false start'
            (c.timeout.minus (← elapsed s' start'))
          discard (expand s' settings root steps)
          f' (← elapsed s' start')) r r' Q := fun {γ Q f f' r r'} h hf => by
    refine (elapsed_pairs h start start').bind ?_
    rintro ⟨_⟩ ⟨_⟩ r₁ r₁' ⟨⟨t, t', ht, rfl, rfl⟩, h₁⟩
    refine (roundParams_pairs (fun h => by cases h) (hk.left hhalf hstart ht) h₁).bind
      fun q q' r₂ r₂' ⟨hqq, h₂⟩ => ?_
    refine (expand_pairs hev hqq root _ h₂).discard.bind ?_
    rintro _ _ r₃ r₃' ⟨_, _, _, h₃⟩
    refine (elapsed_pairs h₃ start start').bind ?_
    rintro d d' r₄ r₄' ⟨⟨u, u', hu, hd, hd'⟩, h₄⟩
    exact hf d d' r₄ r₄' (by rw [hd, hd']; exact hk.spent hstart hu) h₄
  induction more with
  | zero =>
    intro r r' walks h
    unfold randomWalks
    rw [← hc.timeout]
    exact hwalk h fun _ _ _ _ _ hq => ⟨rfl, hq⟩
  | succ more ih =>
    intro r r' walks h
    unfold randomWalks
    rw [← hc.timeout]
    refine hwalk h fun d d' q q' hspent hq => ?_
    dsimp only
    by_cases hd : c.timeout.nanoseconds ≤ d.nanoseconds
    · rw [if_pos hd, if_pos (hspent.1 hd)]
      exact ⟨rfl, hq⟩
    · rw [if_neg hd, if_neg fun h => hd (hspent.2 h)]
      exact ih (walks + 1) hq

theorem randomSearch_pairs {p : RandomParams} {share : Duration}
    (hhalf : 2 * share.nanoseconds ≤ c.timeout.nanoseconds)
    (hk : s.clock.InStep tied c.timeout share s'.clock)
    (a : α) (h : Abreast (fun _ _ => True) tied r r') :
    Pairs (randomSearch s c a p) (randomSearch s' c' a { p with mode }) r r' (Done tied) := by
  unfold randomSearch
  rw [← hk.walks]
  refine (depthOf_pairs hc p.steps h).bind ?_
  rintro _ _ q q' ⟨⟨rfl, rfl⟩, hq⟩
  refine (now_pairs hq).bind fun start start' r₁ r₁' ⟨hstart, h₁⟩ => ?_
  refine (report_pairs h₁ _ _).bind fun _ _ r₂ r₂' h₂ => ?_
  refine (freshGraph_pairs hc.seed h₂).bind fun _ _ r₃ r₃' h₃ => ?_
  refine (randomWalks_pairs hev hc hhalf hk hstart _ _ _ 0 h₃).bind ?_
  rintro walks _ r₄ r₄' ⟨-, h₄⟩
  refine pairs_graph_bind.2 ?_
  exact (report_pairs h₄ _ _).bind fun _ _ r₅ r₅' h₅ => finish_pairs h₅

end Drawn

end Strategies

/-! ## Requests -/

namespace Strategy

/-- The candidates are ranked; otherwise they are drawn. -/
def ranked : Strategy → Bool
  | greedy _ | greedyWalks .. | random _ => false
  | beamDfs p | beamBfs p => p.ranking
  | beamBeam .. => true

/-- The strategy with another oracle, unless it ranks by its own. -/
def remode (mode : EvalMode) : Strategy → Strategy
  | greedy p => greedy { p with mode }
  | greedyWalks walks p => greedyWalks walks { p with mode }
  | beamDfs p => beamDfs { p with mode := if p.ranking then p.mode else mode }
  | beamBfs p => beamBfs { p with mode := if p.ranking then p.mode else mode }
  | beamBeam first second => beamBeam first second
  | random p => random { p with mode }

/-- The time for one round or phase.  A random walk gets what is left: this much, if no
    more than that is spent. -/
def share (timeout : Duration) : Strategy → Duration
  | greedy p | greedyWalks _ p => timeout.divide (max p.steps.toNat 1)
  | beamDfs _ => timeout
  | beamBfs p => timeout.divide (max p.steps.toNat 1)
  | beamBeam .. | random _ => timeout.divide 2

theorem share_le (timeout : Duration) (st : Strategy) :
    (st.share timeout).nanoseconds ≤ timeout.nanoseconds := by
  cases st with
  | beamDfs => exact le_rfl
  | _ => exact Nat.div_le_self _ _

theorem exists_remode (st : Strategy) : ∃ mode, st.remode mode = st := by
  cases st with
  | greedy p => exact ⟨p.mode, rfl⟩
  | greedyWalks walks p => exact ⟨p.mode, rfl⟩
  | beamDfs p => exact ⟨p.mode, by simp only [remode, ite_self]⟩
  | beamBfs p => exact ⟨p.mode, by simp only [remode, ite_self]⟩
  | beamBeam first second => exact ⟨.loopNest, rfl⟩
  | random p => exact ⟨p.mode, rfl⟩

end Strategy

section Requests

variable {α ε ε' : Type} [Agent α] [Evaluator ε α] [Evaluator ε' α] {s : Setting ε}
  {s' : Setting ε'} {r r' : Run α}

theorem runStrategy_pairs {c c' : CheckedConfig} (st : Strategy) (mode : EvalMode)
    (hev : Agree α st.ranked s.evaluator s'.evaluator)
    (hc : c.Alike st.ranked c'.toSearchConfig)
    (hk : s.clock.Alike c.timeout (st.share c.timeout) s'.clock) (a : α)
    (h : Abreast (fun _ _ => True) True r r') :
    Pairs (runStrategy s c a st) (runStrategy s' c' a (st.remode mode)) r r'
      fun t t' _ _ => t.Alike t' := by
  have hstart : ∀ tied, Abreast (fun _ _ => True) tied r r' := fun tied =>
    ⟨trivial, h.turn, fun _ => h.readings trivial⟩
  have hmode : ∀ p : BeamParams, p.ranking = true → p.mode = if p.ranking then p.mode else mode :=
    fun p hp => by rw [if_pos hp]
  obtain ⟨tied, hstep⟩ := hk.inStep (st.share_le c.timeout)
  have hdone : ∀ {x x' : SearchM α Table} {tied}, Pairs x x' r r' (Done tied) →
      Pairs x x' r r' fun t t' _ _ => t.Alike t' := fun hx => hx.imp fun _ _ _ _ ht => ht.1
  cases st with
  | greedy p => exact hdone (greedySearch_pairs hev hc hstep a (hstart tied))
  | greedyWalks walks p => exact hdone (greedyWalks_pairs hev hc hstep a (hstart tied))
  | beamDfs p => exact hdone (beamDfs_pairs hev hc rfl (hmode p) hstep a (hstart tied))
  | beamBfs p => exact hdone (beamBfs_pairs hev hc rfl (hmode p) hstep a (hstart tied))
  | beamBeam first second =>
    obtain ⟨tied, hstep⟩ := (hk.divide 2).inStep le_rfl
    exact hdone (beamBeam_pairs hev hc rfl hstep a (hstart tied))
  | random p =>
    have hhalf : 2 * (c.timeout.divide 2).nanoseconds ≤ c.timeout.nanoseconds :=
      Nat.mul_div_le _ _
    exact hdone (randomSearch_pairs hev hc hhalf hstep a (hstart tied))

omit [Agent α] in
theorem check_pairs {ranked : Bool} {c c' : SearchConfig} {I : Run α → Run α → Prop}
    (hc : c.Alike ranked c') (h : I r r') :
    Pairs (SearchM.ofExcept c.check) (SearchM.ofExcept c'.check) r r' fun v v' q q' =>
      (v.toSearchConfig = c ∧ v'.toSearchConfig = c') ∧ I q q' := by
  have hvalid : c.Valid ↔ c'.Valid := by
    unfold SearchConfig.Valid
    rw [hc.maxDepth]
  unfold SearchConfig.check
  by_cases hv : c.Valid
  · rw [dif_pos hv, dif_pos (hvalid.1 hv)]
    exact ⟨⟨rfl, rfl⟩, h⟩
  · rw [dif_neg hv, dif_neg fun hv' => hv (hvalid.2 hv'), hc.maxDepth]
    split
    · exact pairs_throw
    · exact pairs_throw

theorem runRequest_pairs {q q' : SearchRequest} {base base' : SearchConfig} {mode : EvalMode}
    (hst : q'.strategy = q.strategy.remode mode)
    (hev : Agree α q.strategy.ranked s.evaluator s'.evaluator)
    (hc : (q.effectiveConfig base).Alike q.strategy.ranked (q'.effectiveConfig base'))
    (hk : s.clock.Alike (q.effectiveConfig base).timeout
      (q.strategy.share (q.effectiveConfig base).timeout) s'.clock) (a : α)
    (h : Abreast (fun _ _ => True) True r r') :
    Pairs (runRequest s a q base) (runRequest s' a q' base') r r' fun t t' _ _ => t.Alike t' := by
  unfold runRequest
  refine (report_pairs h _ _).bind fun _ _ r₁ r₁' h₁ => ?_
  refine (check_pairs hc h₁).bind ?_
  rintro c c' r₂ r₂' ⟨⟨hcc, hcc'⟩, h₂⟩
  rw [hst]
  rw [← hcc, ← hcc'] at hc
  rw [← hcc] at hk
  exact runStrategy_pairs q.strategy mode hev hc hk a h₂

/-- The actions and the rewards that a search finds, or its error. -/
def outcome (answer : Except SearchError Table × Trace α) :
    Except SearchError (List String × List Float) :=
  answer.1.map fun t => (t.actions, t.rewards)

theorem outcome_search_eq {q q' : SearchRequest} {base base' : SearchConfig} (mode : EvalMode)
    (hst : q'.strategy = q.strategy.remode mode)
    (hev : Agree α q.strategy.ranked s.evaluator s'.evaluator)
    (hc : (q.effectiveConfig base).Alike q.strategy.ranked (q'.effectiveConfig base'))
    (hk : s.clock.Alike (q.effectiveConfig base).timeout
      (q.strategy.share (q.effectiveConfig base).timeout) s'.clock) {a : α} {t : Trace α} :
    outcome (search s' a q' base' t) = outcome (search s a q base t) := by
  have hpairs : Pairs (runRequest s a q base) (runRequest s' a q' base') ⟨.empty base.seed, t⟩
      ⟨.empty base'.seed, t⟩ fun t t' _ _ => t.Alike t' :=
    runRequest_pairs hst hev hc hk a ⟨trivial, rfl, fun _ => rfl⟩
  unfold search EStateM.run
  unfold Pairs at hpairs
  cases hx : runRequest s a q base ⟨.empty base.seed, t⟩ <;>
    cases hx' : runRequest s' a q' base' ⟨.empty base'.seed, t⟩ <;> rw [hx, hx'] at hpairs
  · have ht : Table.Alike _ _ := hpairs
    exact congrArg Except.ok (Prod.ext ht.actions.symm ht.rewards.symm)
  · exact hpairs.elim
  · exact hpairs.elim
  · exact congrArg Except.error hpairs.symm

/-- **Unused knobs**: the outcome of a search that draws its candidates does not depend on
    the mode, nor on the rankings of the evaluator; that of one that ranks them does not
    depend on the seed; and none depends on the debug flag. -/
theorem search_unused_knobs (s : Setting ε) (s' : Setting ε') (q : SearchRequest)
    (base : SearchConfig) (a : α) (t : Trace α)
    (hk : s.clock.Alike (q.effectiveConfig base).timeout
      (q.strategy.share (q.effectiveConfig base).timeout) s'.clock) :
    (q.strategy.ranked = false →
      (∀ turn (b : α), Evaluator.score s.evaluator turn b .loopNest =
        Evaluator.score s'.evaluator turn b .loopNest) →
      ∀ mode, outcome (search s' a { q with strategy := q.strategy.remode mode } base t) =
        outcome (search s a q base t)) ∧
    (q.strategy.ranked = true → ∀ seed seed',
      outcome (search ⟨s.evaluator, s'.clock⟩ a { q with options.seed := seed }
          { base with seed := seed' } t) =
        outcome (search s a q base t)) ∧
    ∀ debug debug',
      outcome (search ⟨s.evaluator, s'.clock⟩ a { q with options.debug := debug }
          { base with debug := debug' } t) =
        outcome (search s a q base t) := by
  have hself : Agree α q.strategy.ranked s.evaluator s.evaluator :=
    ⟨fun _ _ => rfl, fun _ _ _ _ => rfl⟩
  obtain ⟨own, hown⟩ := q.strategy.exists_remode
  refine ⟨fun hr hscore mode => ?_, fun hr seed seed' => ?_, fun debug debug' => ?_⟩
  · have hev : Agree α q.strategy.ranked s.evaluator s'.evaluator :=
      ⟨hscore, fun h => absurd (hr.symm.trans h) (by simp)⟩
    refine outcome_search_eq mode ?_ hev ?_ hk
    · rfl
    · exact ⟨rfl, rfl, fun _ => rfl⟩
  · refine outcome_search_eq own ?_ ?_ ?_ ?_
    · exact hown.symm
    · exact hself
    · exact ⟨rfl, rfl, fun h => absurd (hr.symm.trans h) (by simp)⟩
    · exact hk
  · refine outcome_search_eq own ?_ ?_ ?_ ?_
    · exact hown.symm
    · exact hself
    · exact ⟨rfl, rfl, fun _ => rfl⟩
    · exact hk

end Requests

/-! ## A search with an evaluator that cannot rank -/

/-- Scores a state as `UpDownEvaluator` does, and never ranks. -/
structure Unranking where

instance : Evaluator Unranking UpDown where
  score _ _ a _ := .ok a.score.toFloat
  rank _ _ _ mode := .error (.backend ("no ranking by " ++ mode.name))

/-- A greedy search by either evaluator, on a clock that stands still and on one that does
    not; a beam without time, with two seeds; and a random search that draws its graph. -/
theorem search_unused_knobs_upDown :
    outcome (search ⟨Unranking.mk, ⟨(min · 5), 2⟩⟩ UpDown.start
        ⟨.greedy ⟨2, 1, 2, .policy⟩, {}⟩ {} .empty) =
      outcome (search ⟨UpDownEvaluator.mk, ⟨fun _ => 0, 2⟩⟩ UpDown.start
        ⟨.greedy ⟨2, 1, 2, .loopNest⟩, {}⟩ {} .empty) ∧
    outcome (search ⟨UpDownEvaluator.mk, ⟨(2 * min · 5), 2⟩⟩ UpDown.start
        ⟨.beamBfs ⟨2, 1, .cost, true⟩, { timeout := some .zero, seed := some 7 }⟩ {} .empty) =
      outcome (search ⟨UpDownEvaluator.mk, ⟨(min · 5), 2⟩⟩ UpDown.start
        ⟨.beamBfs ⟨2, 1, .cost, true⟩, { timeout := some .zero }⟩ {} .empty) ∧
    outcome (search ⟨UpDownEvaluator.mk, ⟨id, 2⟩⟩ UpDown.start
        ⟨.random ⟨2, .loopNest⟩, { debug := true }⟩ {} .empty) =
      outcome (search ⟨UpDownEvaluator.mk, ⟨id, 2⟩⟩ UpDown.start
        ⟨.random ⟨2, .loopNest⟩, {}⟩ {} .empty) := by
  refine ⟨?_, ?_, ?_⟩
  · refine (search_unused_knobs ⟨UpDownEvaluator.mk, ⟨fun _ => 0, 2⟩⟩
      ⟨Unranking.mk, ⟨(min · 5), 2⟩⟩ ⟨.greedy ⟨2, 1, 2, .loopNest⟩, {}⟩ {} UpDown.start .empty
      (.ample ?_ ?_ rfl)).1 rfl (fun _ _ => rfl) .policy
    · intro i j
      show 0 < 0 + 30000000000
      decide
    · intro i j
      show min j 5 < min i 5 + 30000000000
      omega
  · refine (search_unused_knobs ⟨UpDownEvaluator.mk, ⟨(min · 5), 2⟩⟩
      ⟨UpDownEvaluator.mk, ⟨(2 * min · 5), 2⟩⟩
      ⟨.beamBfs ⟨2, 1, .cost, true⟩, { timeout := some .zero }⟩ {} UpDown.start .empty
      (.none rfl ?_ ?_ rfl)).2.1 rfl (some 7) 0
    · intro i j
      show min i 5 ≤ min j 5 ↔ 2 * min i 5 ≤ 2 * min j 5
      omega
    · have hsome : ∀ t ≤ 10, (deadlineAfter t .zero).isSome := fun t ht => by
        have hlt : t + Duration.zero.nanoseconds < 0x8000000000000000 * Duration.perSecond := by
          show t + 0 < 9223372036854775808 * 1000000000
          omega
        unfold deadlineAfter
        dsimp only
        rw [if_pos hlt]
        rfl
      exact fun i => ⟨hsome (min i 5) (by omega), hsome (2 * min i 5) (by omega)⟩
  · exact (search_unused_knobs ⟨UpDownEvaluator.mk, ⟨id, 2⟩⟩ ⟨UpDownEvaluator.mk, ⟨id, 2⟩⟩
      ⟨.random ⟨2, .loopNest⟩, {}⟩ {} UpDown.start .empty (.same rfl)).2.2 true false

/-- A beam that ranks does ask for rankings. -/
example : (search ⟨Unranking.mk, ⟨id, 0⟩⟩ UpDown.start ⟨.beamDfs ⟨1, 1, .policy, true⟩, {}⟩ {}
    .empty).1 matches .error (.eval (.backend _)) := by
  decide +kernel

end ScheduleSearch

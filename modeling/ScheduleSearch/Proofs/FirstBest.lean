/-
  The first best of several greedy searches.

  `FirstBest` says which of several outcomes is taken: the first with the highest reward, or
  the first error if there is any.

  * `FirstBest.next`: how one more outcome changes the choice;
  * `greedySearch_reward`: a table of a greedy search ends with a finite reward, so any two
    of them can be compared;
  * `walkOutcome` is what a walk comes to after the walks before it;
  * **`greedyWalks_firstBest`**: the walks together come to the first best of these outcomes,
    and also to the first best of what each greedy search finds on its own.
-/
import ScheduleSearch.Proofs.Independence
import ScheduleSearch.Proofs.Strategies

namespace ScheduleSearch

open SearchM

variable {α ε β γ : Type}

/-! ## The first best outcome -/

/-- The choice between `n` outcomes: the first of the highest reward if none is an error, or
    else the first error. -/
inductive FirstBest (reward : β → Option Float) (n : Nat) (outcome : Nat → Except SearchError β) :
    Except SearchError β → Prop
  | best {j : Nat} {v : β} {x : Float} : j < n → outcome j = .ok v → reward v = some x →
      (∀ i < n, ∃ w y, outcome i = .ok w ∧ reward w = some y ∧ y ≤ x ∧ (i < j → y < x)) →
      FirstBest reward n outcome (.ok v)
  | fails {j : Nat} {e : SearchError} : j < n → outcome j = .error e →
      (∀ i < j, ∃ w, outcome i = .ok w) → FirstBest reward n outcome (.error e)

namespace FirstBest

variable {reward : β → Option Float} {n : Nat} {outcome : Nat → Except SearchError β} {v w : β}
  {x y : Float}

/-- The first of all outcomes. -/
theorem first (hv : outcome 0 = .ok v) (hx : reward v = some x) (hnan : x.isNaN = false) :
    FirstBest reward 1 outcome (.ok v) := by
  refine .best Nat.zero_lt_one hv hx fun i hi => ?_
  obtain rfl := Nat.lt_one_iff.1 hi
  exact ⟨v, x, hv, hx, FloatOrder.refl hnan, fun h => absurd h (lt_irrefl _)⟩

/-- One more outcome is chosen if its reward is higher than that of the choice so far. -/
theorem next (h : FirstBest reward n outcome (.ok v)) (hx : reward v = some x)
    (hw : outcome n = .ok w) (hy : reward w = some y) (hnan : y.isNaN = false) :
    FirstBest reward (n + 1) outcome (.ok (if x < y then w else v)) := by
  cases h with
  | @best j _ x' hj hv hx' hall =>
    obtain rfl : x = x' := Option.some.inj (hx.symm.trans hx')
    have hxnan : x.isNaN = false := by
      obtain ⟨_, _, -, -, hle, -⟩ := hall j hj
      exact (FloatOrder.not_isNaN_of_le hle).2
    by_cases hlt : x < y
    · rw [if_pos hlt]
      refine .best (Nat.lt_succ_self n) hw hy fun i hi => ?_
      rcases Nat.lt_succ_iff_lt_or_eq.1 hi with hi | rfl
      · obtain ⟨u, z, hu, hz, hle, -⟩ := hall i hi
        have hzy := FloatOrder.lt_of_le_of_lt hnan hle hlt
        exact ⟨u, z, hu, hz, FloatOrder.le_of_lt (FloatOrder.not_isNaN_of_le hle).1 hnan hzy,
          fun _ => hzy⟩
      · exact ⟨w, y, hw, hy, FloatOrder.refl hnan, fun h => absurd h (lt_irrefl _)⟩
    · rw [if_neg hlt]
      refine .best (hj.trans (Nat.lt_succ_self n)) hv hx fun i hi => ?_
      rcases Nat.lt_succ_iff_lt_or_eq.1 hi with hi | rfl
      · exact hall i hi
      · exact ⟨w, y, hw, hy, (FloatOrder.not_lt_iff hxnan hnan).1 hlt,
          fun h => absurd (h.trans hj) (lt_irrefl _)⟩

/-- An error after outcomes that are none. -/
theorem fail {e : SearchError} {m : Nat}
    (h : FirstBest reward n outcome (.ok v)) (he : outcome n = .error e) (hm : n < m) :
    FirstBest reward m outcome (.error e) := by
  cases h with
  | best _ _ _ hall =>
    refine .fails hm he fun i hi => ?_
    obtain ⟨w, _, hw, -⟩ := hall i hi
    exact ⟨w, hw⟩

/-- The choice is made by the rewards alone. -/
theorem map {reward' : γ → Option Float} {outcome' : Nat → Except SearchError γ} {f : β → γ}
    {choice : Except SearchError β} (h : FirstBest reward n outcome choice)
    (hreward : ∀ v, reward' (f v) = reward v) (houtcome : ∀ i, (outcome i).map f = outcome' i) :
    FirstBest reward' n outcome' (choice.map f) := by
  have hok : ∀ {i v}, outcome i = .ok v → outcome' i = .ok (f v) := by
    intro i v hv
    rw [← houtcome, hv]
    rfl
  cases h with
  | best hj hv hx hall =>
    refine .best hj (hok hv) ((hreward _).trans hx) fun i hi => ?_
    obtain ⟨w, y, hw, hy, hle, hlt⟩ := hall i hi
    exact ⟨f w, y, hok hw, (hreward w).trans hy, hle, hlt⟩
  | @fails j e hj he hall =>
    refine .fails hj (by rw [← houtcome, he]; rfl) fun i hi => ?_
    obtain ⟨w, hw⟩ := hall i hi
    exact ⟨f w, hok hw⟩

end FirstBest

/-! ## Finite rewards -/

/-- Every score in the graph was measured, so it is finite. -/
structure Graph.Finite (g : Graph) : Prop where
  wired : g.Wired
  finite (fp : Fingerprint) (m : Node) : g.node? fp = some m → m.score.isFinite

theorem Graph.finite_empty (seed : UInt64) : (Graph.empty seed).Finite :=
  ⟨wired_empty seed, fun _ _ h => by cases h⟩

theorem Graph.Finite.like {g g' : Graph} (h : g.Finite) (hl : g.Like g') : g'.Finite := by
  obtain ⟨sampler, rfl⟩ := hl
  exact ⟨h.wired.like g.depthTimes sampler, h.finite⟩

theorem Graph.Finite.recordEdge {g : Graph} (h : g.Finite) (t : Transition) :
    (g.recordEdge t).2.Finite := by
  refine ⟨wired_recordEdge h.wired t, fun fp m hm => h.finite fp m ?_⟩
  obtain ⟨edges, transitions, inEdges, outDegrees, hg⟩ := recordEdge_nodes g t
  rwa [hg] at hm

section

variable [Agent α] [Evaluator ε α] {s : Setting ε} {c : CheckedConfig} {a : α} {r r' : Run α}

theorem Graph.Finite.visited {ev : ε} (h : r.graph.Finite) (hv : Visited ev a r r') :
    r'.graph.Finite := by
  refine ⟨hv.wired h.wired, fun fp m hm => ?_⟩
  obtain ⟨x, time, times, sampler, -, hx, -, hg, -⟩ := hv
  rw [hg] at hm
  rcases Graph.node?_record hm with ⟨-, rfl⟩ | hm
  · exact hx
  · exact h.finite fp m hm

theorem expand_finite {p : ExpandParams} {steps : Int} (h : r.graph.Finite) :
    Ends (expand s p a steps) r (fun _ r' => r'.graph.Finite) fun _ _ => True := by
  refine (expand_keeps (P := fun _ _ => True) (I := fun r => r.graph.Finite)
    (fun h hq => h.like hq.graph) (fun {_ b r} _ h => ?_) (fun _ _ h => ⟨trivial, h.recordEdge _⟩)
    trivial h).imp_error fun _ _ _ => trivial
  exact (visit_ends s p b).imp (fun _ _ hv => h.visited hv) fun _ _ ⟨hl, _⟩ => h.like hl

theorem greedyRounds_finite {p : GreedyParams} {start steps lookahead : Nat} (left : Nat) :
    ∀ {current : α} {r : Run α}, r.graph.Finite →
      Ends (greedyRounds s c p start steps lookahead left current) r
        (fun _ r' => r'.graph.Finite) fun _ _ => True := by
  induction left with
  | zero => exact fun h => h
  | succ left ih =>
    intro current r h
    refine Ends.bind (roundParams_ends p.width p.mode false start _) fun _ r₁ ⟨hq₁, _⟩ => ?_
    refine Ends.bind (expand_finite (h.like hq₁.graph)) fun suffix r₂ h₂ => ?_
    refine Ends.bind (report_ends _) fun _ r₃ hq₃ => ?_
    have h₃ := h₂.like hq₃.graph
    cases suffix with
    | nil => exact h₃
    | cons x rest =>
      dsimp only
      split
      · exact (replayed_ends current _).imp (fun _ _ ⟨hr, _⟩ => hr ▸ h₃) fun _ _ _ => trivial
      · refine Ends.bind ((stepped_ends current x).imp_error fun _ _ _ => trivial) ?_
        rintro next r₄ ⟨rfl, -⟩
        refine Ends.bind (elapsed_ends start) fun time r₅ ⟨hq₅, _⟩ => ?_
        have h₅ := h₃.like hq₅.graph
        split
        · exact Ends.bind (report_ends _) fun _ _ hq₆ => ends_pure.2 (h₅.like hq₆.graph)
        · exact ih h₅

omit [Agent α] [Evaluator ε α] in
/-- The last reward of a table is the score of the best state. -/
theorem finish_reward {strategy : String} {start : Nat} (h : r.graph.Finite) :
    Ends (finish s c strategy start) r
      (fun t _ => ∃ x, t.finalReward? = some x ∧ x.isFinite) fun _ _ => True := by
  refine finish_rule (fun h _ => h) ?_
  unfold Ends SearchM.bestPath
  cases hpath : r.graph.bestPath with
  | error e g => trivial
  | ok t g =>
    obtain ⟨best, ns, xs, hbest, -, rfl, -⟩ := Graph.bestPath_chain h.wired hpath
    exact ⟨best.score, by simp [Table.finalReward?], h.finite _ _ (h.wired.node?_best hbest).2⟩

/-- A greedy search that succeeds ends with a finite reward. -/
theorem greedySearch_reward (p : GreedyParams) :
    Ends (greedySearch s c a p) r (fun t _ => ∃ x, t.finalReward? = some x ∧ x.isFinite)
      fun _ _ => True :=
  greedySearch_rule (P := fun _ r' => r'.graph.Finite) (B := fun r' => r'.graph.Finite)
    (fun _ _ => trivial)
    (fun _ _ _ hf => greedyRounds_finite _ ((Graph.finite_empty c.seed).like hf.graph))
    (fun _ _ _ _ h _ hq => expand_finite (h.like hq.graph)) (fun _ _ h _ => h)
    fun _ _ h => finish_reward h

/-! ## Walks -/

/-- The run that walk `i` starts on, after the walks before it. -/
def walkStart (s : Setting ε) (c : CheckedConfig) (a : α) (p : GreedyParams) (r : Run α) :
    Nat → Run α
  | 0 => r
  | i + 1 =>
    match greedySearch s (c.withSeed (c.seed + i.toUInt64)) a p (walkStart s c a p r i) with
    | .ok table q => { q with trace := q.trace.report (.greedyWalkFinished i (walkReward table)) }
    | .error _ q => q

/-- What walk `i` comes to after the walks before it. -/
def walkOutcome (s : Setting ε) (c : CheckedConfig) (a : α) (p : GreedyParams) (r : Run α)
    (i : Nat) : Except SearchError Table :=
  answer (greedySearch s (c.withSeed (c.seed + i.toUInt64)) a p) (walkStart s c a p r i)

theorem walkReward_eq {t : Table} {x : Float} (h : t.finalReward? = some x) : walkReward t = x := by
  rw [walkReward, h, Option.getD_some]

/-- The walks that are left add to the choice between those before them. -/
theorem greedyWalksFrom_firstBest {p : GreedyParams} (n : Nat) :
    ∀ (walk : Nat) (best : Option Table), 0 < walk + n → (best = none → walk = 0) →
      (∀ t, best = some t →
        FirstBest Table.finalReward? walk (walkOutcome s c a p r) (.ok t)) →
      FirstBest Table.finalReward? (walk + n) (walkOutcome s c a p r)
        (answer (greedyWalksFrom s c a p n walk best) (walkStart s c a p r walk)) := by
  induction n with
  | zero =>
    intro walk best hn hnone hsome
    cases best with
    | none => exact absurd (hnone rfl) (by omega)
    | some t => exact hsome t rfl
  | succ n ih =>
    intro walk best hn hnone hsome
    unfold greedyWalksFrom
    cases hsearch : greedySearch s (c.withSeed (c.seed + walk.toUInt64)) a p
        (walkStart s c a p r walk) with
    | error e q =>
      have hwalk : walkOutcome s c a p r walk = .error e := answer_error hsearch
      rw [answer_bind_error hsearch]
      cases best with
      | none =>
        obtain rfl := hnone rfl
        exact .fails hn hwalk fun i hi => absurd hi (Nat.not_lt_zero i)
      | some t => exact (hsome t rfl).fail hwalk (by omega)
    | ok table q =>
      have hwalk : walkOutcome s c a p r walk = .ok table := answer_ok hsearch
      have hnext : walkStart s c a p r (walk + 1) =
          ⟨q.graph, q.trace.report (.greedyWalkFinished walk (walkReward table))⟩ := by
        rw [walkStart, hsearch]
      obtain ⟨y, hy, hfinite⟩ := (greedySearch_reward p).ok hsearch
      have hnan := FloatOrder.not_isNaN hfinite
      rw [answer_bind_ok hsearch, answer_report, ← hnext, Nat.add_left_comm, Nat.add_comm n]
      dsimp only
      cases best with
      | none =>
        obtain rfl := hnone rfl
        refine ih 1 (some table) (by omega) (absurd · (Option.some_ne_none _)) fun t ht => ?_
        obtain rfl := Option.some.inj ht
        exact .first hwalk hy hnan
      | some t =>
        have ht := hsome t rfl
        obtain ⟨x, hx⟩ : ∃ x, t.finalReward? = some x := by
          cases ht with
          | best _ _ hx _ => exact ⟨_, hx⟩
        have hbest := ht.next hx hwalk hy hnan
        have hbetter : (if decide (walkReward t < walkReward table) = true then some table
            else some t) = some (if x < y then table else t) := by
          rw [walkReward_eq hx, walkReward_eq hy, apply_ite some]
          simp only [decide_eq_true_eq]
        rw [hbetter]
        refine ih (walk + 1) _ (by omega) (absurd · (Option.some_ne_none _)) fun t' ht' => ?_
        obtain rfl := Option.some.inj ht'
        exact hbest

omit [Agent α] [Evaluator ε α] in
/-- The seed has no part in the budget. -/
theorem Clock.Idle.withSeed {rounds : Nat} {k : Clock} (h : k.Idle c.toSearchConfig rounds)
    (seed : UInt64) : k.Idle (c.withSeed seed).toSearchConfig rounds := by
  cases h with
  | ample h => exact .ample h
  | none h => exact .none ⟨h.zero, h.mono, h.isSome⟩

/-- **Greedy walks** come to the first best of their walks, one after the other.  If no score
    depends on the turn, and the clock makes no difference to the budget, they find what the
    first best of these searches finds on its own, wherever each is made. -/
theorem greedyWalks_firstBest (s : Setting ε) (c : CheckedConfig) (a : α) (walks : Nat)
    (p : GreedyParams) (r : Run α) :
    FirstBest Table.finalReward? (max walks 1) (walkOutcome s c a p r)
        (answer (greedyWalks s c a walks p) r) ∧
      (Steady (α := α) s.evaluator → s.clock.Idle c.toSearchConfig p.steps.toNat →
        ∀ (readings : Nat → Nat → Nat) (runs : Nat → Run α),
          (∀ i, Clock.Idle c.toSearchConfig p.steps.toNat
            { s.clock with reading := readings i }) →
          FirstBest (fun found => found.2.getLast?) (max walks 1)
            (fun i => (answer (greedySearch ⟨s.evaluator, { s.clock with reading := readings i }⟩
              (c.withSeed (c.seed + i.toUInt64)) a p) (runs i)).map Table.found)
            ((answer (greedyWalks s c a walks p) r).map Table.found)) := by
  have hwalks : FirstBest Table.finalReward? (max walks 1) (walkOutcome s c a p r)
      (answer (greedyWalks s c a walks p) r) := by
    have h := greedyWalksFrom_firstBest (s := s) (c := c) (a := a) (r := r) (p := p)
      (max walks 1) 0 none (by omega) (fun _ => rfl) nofun
    rwa [Nat.zero_add] at h
  refine ⟨hwalks, fun hev hk readings runs hks => hwalks.map (fun _ => rfl) fun i => ?_⟩
  exact greedySearch_alone hev (hk.withSeed _) ((hks i).withSeed _)

end

/-- Three walks of two steps in the up/down world, together and each on its own, with clocks
    that stand still. -/
theorem greedyWalks_firstBest_upDown :
    let c : CheckedConfig := ⟨{}, by decide⟩
    let p : GreedyParams := ⟨2, 2, 2, .loopNest⟩
    let r : Run UpDown := ⟨.empty 0, .empty⟩
    ∃ table, answer (greedyWalks ⟨UpDownEvaluator.mk, ⟨fun _ => 0, 0⟩⟩ c UpDown.start 3 p) r =
        .ok table ∧
      FirstBest (fun found => found.2.getLast?) 3
        (fun i => (answer (greedySearch ⟨UpDownEvaluator.mk, ⟨fun _ => i, 0⟩⟩
          (c.withSeed (c.seed + i.toUInt64)) UpDown.start p) r).map Table.found)
        (.ok table.found) := by
  intro c p r
  have hkeeps : ∀ i, Clock.Idle c.toSearchConfig 2 ⟨fun _ => i, 0⟩ := fun i =>
    .ample fun _ _ => Nat.lt_add_of_pos_right (by decide)
  obtain ⟨table, r', htable⟩ := UpDown.runStrategy_ok (s := ⟨UpDownEvaluator.mk, ⟨fun _ => 0, 0⟩⟩)
    (c := c) (r := r) (.greedyWalks 3 p) rfl fun k hk => by
      rcases List.mem_pair.1 hk with rfl | rfl <;> exact ⟨by decide, by decide⟩
  have hanswer : answer (greedyWalks ⟨UpDownEvaluator.mk, ⟨fun _ => 0, 0⟩⟩ c UpDown.start 3 p) r =
      .ok table := answer_ok htable
  refine ⟨table, hanswer, ?_⟩
  have h := (greedyWalks_firstBest ⟨UpDownEvaluator.mk, ⟨fun _ => 0, 0⟩⟩ c UpDown.start 3 p r).2
    (fun _ _ _ => rfl) (hkeeps 0) (fun i _ => i) (fun _ => r) hkeeps
  rw [hanswer] at h
  exact h

end ScheduleSearch

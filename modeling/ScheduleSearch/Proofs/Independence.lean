/-
  A search does not depend on what was done before it.

  A search starts with a new graph, but the scores that were asked for and the readings of
  the clock go on counting.  Neither makes a difference to a greedy search if no score
  depends on the turn, and if time is never up, or there is none from the start.

  * `Blind` computations do not look at the scores that were asked for; `blind_greedySearch`:
    a greedy search is one, so it may be made at any turn;
  * `Idle`: no reading of the clock makes a difference to the budget;
  * `greedySearch_apart`: if time is never up, searches at any turn and with any clocks have
    the same outcome;
  * `greedySearch_spent`: without time, a search only scores the state it starts from;
  * **`greedySearch_alone`**: so the outcome of a greedy search is the same after other
    searches as on its own.
-/
import ScheduleSearch.Proofs.Knobs

namespace ScheduleSearch

open SearchM

variable {α β γ ε : Type}

/-! ## Blindness -/

/-- No measured score depends on the turn. -/
def Steady [Evaluator ε α] (ev : ε) : Prop :=
  ∀ (turn turn' : Nat) (a : α),
    Evaluator.score ev turn a .loopNest = Evaluator.score ev turn' a .loopNest

/-- Runs that differ in what was scored and reported only. -/
structure Run.Same (r r' : Run α) : Prop where
  graph : r.graph = r'.graph
  readings : r.trace.readings = r'.trace.readings

namespace SearchM

/-- A computation that does not look at what was scored and reported. -/
def Blind (x : SearchM α β) : Prop :=
  ∀ r r' : Run α, r.Same r' → Pairs x x r r' fun v v' q q' => v = v' ∧ q.Same q'

section Rules
variable {x : SearchM α β} {f : β → SearchM α γ}

theorem blind_pure {v : β} : Blind (pure v : SearchM α β) :=
  fun _ _ h => ⟨rfl, h⟩

theorem blind_throw {e : SearchError} : Blind (throw e : SearchM α β) :=
  fun _ _ _ => rfl

theorem Blind.bind (h : Blind x) (hf : ∀ v, Blind (f v)) : Blind (x >>= f) := by
  intro r r' hr
  refine Pairs.bind (h r r' hr) ?_
  rintro v _ q q' ⟨rfl, hq⟩
  exact hf v q q' hq

theorem Blind.discard (h : Blind x) : Blind (discard x) :=
  h.bind fun _ => blind_pure

theorem blind_forM {f : β → SearchM α PUnit} {xs : List β} (h : ∀ y, Blind (f y)) :
    Blind (xs.forM f) := by
  intro r r' hr
  refine (pairs_forM (I := Run.Same) (fun y _ q q' hq => ?_) hr).imp fun _ _ _ _ hq => ⟨rfl, hq⟩
  exact (h y q q' hq).imp fun _ _ _ _ hq => hq.2

theorem blind_ofExcept {y : Except SearchError β} : Blind (ofExcept y : SearchM α β) := by
  cases y with
  | ok v => exact blind_pure
  | error e => exact blind_throw

theorem blind_report (e : Event) : Blind (report e : SearchM α Unit) :=
  fun _ _ h => ⟨rfl, h.graph, h.readings⟩

theorem blind_changeGraph (f : Graph → Graph) : Blind (changeGraph f : SearchM α Unit) :=
  fun _ _ h => ⟨rfl, congrArg f h.graph, h.readings⟩

theorem blind_graph : Blind (graph : SearchM α Graph) :=
  fun _ _ h => ⟨h.graph, h⟩

end Rules

variable {s : Setting ε} {c : CheckedConfig} {p : ExpandParams}

theorem blind_now : Blind (now s : SearchM α Nat) :=
  fun _ _ h => ⟨congrArg s.clock.reading h.readings, h.graph, congrArg (· + 1) h.readings⟩

theorem blind_elapsed (start : Nat) : Blind (elapsed s start : SearchM α Duration) :=
  blind_now.bind fun _ => blind_pure

theorem blind_expired : Blind (expired s p : SearchM α Bool) := by
  unfold expired
  split
  · exact blind_pure
  · exact blind_now.bind fun _ => blind_pure

theorem blind_roundParams {width : Nat} {mode : EvalMode} {ranking : Bool} {start : Nat}
    {budget : Duration} {f : ExpandParams → SearchM α γ}
    (hf : ∀ p, p.ranking = ranking → Blind (f p)) :
    Blind (roundParams s width mode ranking start budget >>= f) := by
  unfold roundParams
  rw [bind_assoc]
  refine blind_now.bind fun t => ?_
  rw [pure_bind]
  exact hf _ rfl

theorem blind_bestPath : Blind (SearchM.bestPath : SearchM α Table) := by
  intro r r' h
  unfold Pairs SearchM.bestPath
  rw [h.graph]
  cases r'.graph.bestPath with
  | ok t g => exact ⟨rfl, rfl, h.readings⟩
  | error e g => rfl

theorem blind_finish {strategy : String} {start : Nat} :
    Blind (finish s c strategy start : SearchM α Table) := by
  refine blind_bestPath.bind fun t => blind_graph.bind fun g => ?_
  have hclose : Blind (do
      let time ← elapsed s start
      report (.searchFinished strategy g.nodeCount g.edgeCount t.path.length
        (t.finalReward?.getD 0) time.seconds)
      return t : SearchM α Table) :=
    (blind_elapsed start).bind fun _ => (blind_report _).bind fun _ => blind_pure
  split
  · exact (blind_report _).bind fun _ => hclose
  · exact hclose

variable [Agent α] [Evaluator ε α]

omit [Agent α] in
theorem blind_measure (hev : Steady (α := α) s.evaluator) (a : α) : Blind (measure s a) := by
  intro r r' h
  refine Pairs.bind (Q := fun answer answer' q q' => answer = answer' ∧ q.Same q') ?_ ?_
  · exact pairs_modifyGet.2 ⟨hev _ _ a, h.graph, h.readings⟩
  · rintro answer _ q q' ⟨rfl, hq⟩
    cases answer with
    | error err => exact pairs_throw
    | ok x =>
      dsimp only
      split
      · exact pairs_pure.2 ⟨rfl, hq⟩
      · exact pairs_throw

section
variable (hev : Steady (α := α) s.evaluator)
include hev

theorem blind_visit (a : α) : Blind (visit s p a) :=
  (blind_elapsed _).bind fun _ => (blind_measure hev a).bind fun _ => blind_changeGraph _

variable (hp : p.ranking = false)
include hp

omit [Evaluator ε α] hev in
theorem blind_choose [Evaluator ε α] (a : α) : Blind (choose s p a) := by
  unfold choose
  rw [hp]
  intro r r' h
  refine pairs_modifyGet.2 ?_
  dsimp only
  rw [h.graph]
  exact ⟨rfl, rfl, h.readings⟩

theorem blind_explore (depth : Nat) (a : α) : Blind (explore s p depth a) := by
  induction depth generalizing a with
  | zero => exact blind_visit hev a
  | succ depth ih =>
    refine (blind_visit hev a).bind fun _ => blind_expired.bind fun late => ?_
    cases late with
    | true => exact blind_pure
    | false =>
      refine (blind_choose hp a).bind fun xs => blind_forM fun x => ?_
      exact blind_ofExcept.bind fun child => (blind_changeGraph _).bind fun _ => ih child

theorem blind_expand (a : α) (steps : Int) : Blind (expand s p a steps) := by
  unfold expand
  split
  · exact blind_throw
  split
  · exact blind_throw
  exact (blind_explore hev hp _ a).bind fun _ => blind_graph.bind fun _ => blind_pure

end

theorem blind_greedyRounds (hev : Steady (α := α) s.evaluator) {p : GreedyParams}
    {start steps lookahead : Nat} (left : Nat) (a : α) :
    Blind (greedyRounds s c p start steps lookahead left a) := by
  induction left generalizing a with
  | zero => exact blind_pure
  | succ left ih =>
    refine blind_roundParams fun q hq => (blind_expand hev hq a _).bind fun suffix =>
      (blind_report _).bind fun _ => ?_
    cases suffix with
    | nil => exact blind_pure
    | cons action suffix =>
      dsimp only
      split
      · exact blind_ofExcept
      refine blind_ofExcept.bind fun next => (blind_elapsed start).bind fun time => ?_
      split
      · exact (blind_report _).bind fun _ => blind_pure
      · exact ih next

/-- **A greedy search is blind**: it does not look at what was scored before. -/
theorem blind_greedySearch (hev : Steady (α := α) s.evaluator) (a : α) (p : GreedyParams) :
    Blind (greedySearch s c a p) := by
  refine blind_ofExcept.bind fun steps => blind_ofExcept.bind fun lookahead =>
    blind_now.bind fun start => (blind_report _).bind fun _ => (blind_changeGraph _).bind fun _ =>
      (blind_greedyRounds hev _ _).bind fun current => blind_graph.bind fun g => ?_
  split
  · exact blind_roundParams fun q hq =>
      (blind_expand hev hq current 0).discard.bind fun _ => blind_finish
  · exact blind_finish

/-! ## Answers -/

omit [Agent α] [Evaluator ε α] in
/-- What a computation answers on a run. -/
def answer (x : SearchM α β) (r : Run α) : Except SearchError β :=
  match x r with
  | .ok v _ => .ok v
  | .error e _ => .error e

section
variable {x : SearchM α β} {f : β → SearchM α γ} {r r' : Run α} {v : β} {e : SearchError}

omit [Agent α] in
theorem answer_ok (h : x r = .ok v r') : answer x r = .ok v := by
  unfold answer
  rw [h]

omit [Agent α] in
theorem answer_error (h : x r = .error e r') : answer x r = .error e := by
  unfold answer
  rw [h]

omit [Agent α] in
theorem answer_bind_ok (h : x r = .ok v r') : answer (x >>= f) r = answer (f v) r' := by
  unfold answer
  rw [bind_of_ok h]

omit [Agent α] in
theorem answer_bind_error (h : x r = .error e r') : answer (x >>= f) r = .error e :=
  answer_error (bind_of_error h)

omit [Agent α] in
theorem answer_report {event : Event} {f : Unit → SearchM α γ} :
    answer (report event >>= f) r = answer (f ()) ⟨r.graph, r.trace.report event⟩ := rfl

end

section
variable {x x' : SearchM α β} {f : β → γ} {r r' : Run α}

omit [Agent α] in
theorem Pairs.answer_eq (h : Pairs x x' r r' fun v v' _ _ => f v = f v') :
    (answer x r).map f = (answer x' r').map f := by
  unfold Pairs at h
  unfold answer
  cases hx : x r <;> cases hx' : x' r' <;> rw [hx, hx'] at h
  · exact congrArg Except.ok h
  · exact h.elim
  · exact h.elim
  · exact congrArg Except.error h

omit [Agent α] in
theorem Ends.answer_eq {o : Except SearchError γ}
    (h : Ends x r (fun v _ => o = .ok (f v)) fun e _ => o = .error e) :
    (answer x r).map f = o := by
  unfold Ends at h
  unfold answer
  cases hx : x r <;> rw [hx] at h
  · exact h.symm
  · exact h.symm

end

end SearchM

/-- What a table says but for the times. -/
def Table.found (t : Table) : List String × List Float := (t.actions, t.rewards)

theorem Table.Alike.found_eq {t t' : Table} (h : t.Alike t') : t.found = t'.found :=
  Prod.ext h.actions h.rewards

section

variable [Agent α] [Evaluator ε α] {s : Setting ε} {c : CheckedConfig} {a : α} {p : GreedyParams}
  {r r' : Run α}

/-! ## Time that is never up -/

/-- Searches at any turn and with any readings of the clock find the same, if time is never
    up. -/
theorem greedySearch_apart {reading : Nat → Nat} (hev : Steady (α := α) s.evaluator)
    (hk : s.clock.Keeps (c.roundBudget p.steps.toNat))
    (hk' : Clock.Keeps { s.clock with reading } (c.roundBudget p.steps.toNat)) :
    (answer (greedySearch s c a p) r).map Table.found =
      (answer (greedySearch ⟨s.evaluator, { s.clock with reading }⟩ c a p) r').map Table.found := by
  have hle : (c.roundBudget p.steps.toNat).nanoseconds ≤ c.timeout.nanoseconds :=
    c.roundBudget_le _
  have hpairs : Pairs (greedySearch s c a p)
      (greedySearch ⟨s.evaluator, { s.clock with reading }⟩ c a p) r
      ⟨r'.graph, { r'.trace with scored := r.trace.scored }⟩ (Done False) := by
    refine greedySearch_pairs ?_ ?_ ?_ a ?_
    · exact ⟨fun _ _ => rfl, nofun⟩
    · exact ⟨rfl, rfl, fun _ => rfl⟩
    · exact Clock.inStep_ample hle hk hk' rfl
    · exact ⟨trivial, rfl, fun h => h.elim⟩
  -- the other search asks at another turn, which it cannot see
  have hblind := blind_greedySearch (s := ⟨s.evaluator, { s.clock with reading }⟩) (c := c) hev a p
    ⟨r'.graph, { r'.trace with scored := r.trace.scored }⟩ r' ⟨rfl, rfl⟩
  exact (hpairs.imp fun _ _ _ _ h => h.1.found_eq).answer_eq.trans
    (hblind.imp fun _ _ _ _ h => congrArg Table.found h.1).answer_eq

/-! ## No time -/

/-- The score of a state as a search takes it, at whatever turn. -/
def measured (ev : ε) (a : α) : Except SearchError Float :=
  match Evaluator.score ev 0 a .loopNest with
  | .error err => .error (.eval err)
  | .ok x => if x.isFinite then .ok x else .error (.eval (.nonFiniteScore x))

/-- The graph with one state. -/
def Graph.lone (a : α) (score : Float) : Graph :=
  (((Graph.empty 0).recordDepthTime (Agent.history a).length 0).record (fingerprint a)
    (Agent.history a) score 0).2

/-- What the best path of a graph says but for the times. -/
def Graph.found (g : Graph) : Except SearchError (List String × List Float) :=
  match g.bestPath with
  | .ok t _ => .ok t.found
  | .error e _ => .error e

/-- What a search says that has seen no state but the one it starts from. -/
def rooted (ev : ε) (a : α) : Except SearchError (List String × List Float) :=
  match measured ev a with
  | .ok score => (Graph.lone a score).found
  | .error e => .error e

theorem rooted_ok {ev : ε} {a : α} {x : Float} (h : measured ev a = .ok x) :
    rooted ev a = (Graph.lone a x).found := by
  unfold rooted
  rw [h]

theorem rooted_error {ev : ε} {a : α} {e : SearchError} (h : measured ev a = .error e) :
    rooted ev a = .error e := by
  unfold rooted
  rw [h]

/-- What a greedy search finds if there is no time: the state that it starts from. -/
def standing (ev : ε) (c : CheckedConfig) (a : α) (p : GreedyParams) :
    Except SearchError (List String × List Float) := do
  let _ ← c.checkedDepth p.steps
  let _ ← c.checkedDepth p.lookahead
  rooted ev (Agent.forget a)

omit [Agent α] in
theorem measure_steady (hev : Steady (α := α) s.evaluator) (a : α) :
    Ends (SearchM.measure s a) r
      (fun x r' => measured s.evaluator a = .ok x ∧ r'.graph = r.graph ∧
        r'.trace.readings = r.trace.readings)
      fun e _ => measured s.evaluator a = .error e := by
  unfold SearchM.measure measured
  refine ends_bind.2 (ends_modifyGet.2 ?_)
  dsimp only [Trace.score]
  rw [hev _ 0 a]
  cases Evaluator.score s.evaluator 0 a .loopNest with
  | error err => exact ends_throw.2 rfl
  | ok x =>
    dsimp only
    split
    · exact ends_pure.2 ⟨rfl, rfl, rfl⟩
    · exact ends_throw.2 rfl

namespace Graph

omit [Evaluator ε α] in
theorem lone_eq (a : α) (score : Float) :
    ∃ depthTimes, lone a score = Graph.store { Graph.empty 0 with depthTimes }
      ⟨fingerprint a, Agent.history a, score, 0, false⟩ := by
  obtain ⟨times, htimes, -⟩ := (Graph.empty 0).recordDepthTime_depthTimes (Agent.history a).length 0
  refine ⟨times, ?_⟩
  have hnone : node? { Graph.empty 0 with depthTimes := times } (fingerprint a) = none := rfl
  unfold lone record
  rw [htimes, hnone]

omit [Evaluator ε α] in
/-- The only state is the best one. -/
theorem remaining_lone (a : α) (score : Float) : (lone a score).remaining (fingerprint a) = [] := by
  obtain ⟨times, hlone⟩ := lone_eq a score
  have hbest := bestNode?_store ((wired_empty 0).like times (Graph.empty 0).sampler)
    ⟨fingerprint a, Agent.history a, score, 0, false⟩
  rw [hlone]
  unfold remaining
  rw [show bestNode? _ = some _ from hbest, node?_store, if_pos rfl]
  simp

omit [Evaluator ε α] in
theorem isEmpty_lone (a : α) (score : Float) : (lone a score).isEmpty = false := by
  obtain ⟨times, hlone⟩ := lone_eq a score
  have hnode : (lone a score).node? (fingerprint a) =
      some ⟨fingerprint a, Agent.history a, score, 0, false⟩ := by
    rw [hlone, node?_store, if_pos rfl]
  exact Bool.eq_false_iff.2 fun hempty => not_node?_of_isEmpty hempty hnode

end Graph

variable {q : ExpandParams}

/-- A visit of an empty graph. -/
theorem visit_steady (hev : Steady (α := α) s.evaluator) (a : α)
    (h : r.graph.Alike true (Graph.empty 0)) :
    Ends (visit s q a) r
      (fun _ r' => (∃ x, measured s.evaluator a = .ok x ∧ r'.graph.Alike true (Graph.lone a x)) ∧
        r'.trace.readings = r.trace.readings + 1)
      fun e _ => measured s.evaluator a = .error e := by
  unfold visit
  have helapsed : Ends (elapsed s q.start) r
      (fun _ r' => r'.graph = r.graph ∧ r'.trace.readings = r.trace.readings + 1)
      fun e _ => measured s.evaluator a = .error e := ⟨rfl, rfl⟩
  refine Ends.bind helapsed fun time r₁ ⟨hg₁, hr₁⟩ => ?_
  refine Ends.bind (measure_steady hev a) fun x r₂ ⟨hx, hg₂, hr₂⟩ => ends_changeGraph.2 ?_
  refine ⟨⟨x, hx, ?_⟩, hr₂.trans hr₁⟩
  rw [hg₂, hg₁]
  exact (h.recordDepthTime _ _ _).record _ _ _ _ _

omit [Agent α] [Evaluator ε α] in
/-- A deadline that was read off the clock is over. -/
theorem expired_spent {i : Nat} (hmono : Monotone s.clock.reading)
    (hd : q.deadline = some (s.clock.reading i)) (hi : i ≤ r.trace.readings)
    {E : SearchError → Run α → Prop} :
    Ends (expired s q) r (fun late r' => late = true ∧ r'.graph = r.graph) E := by
  unfold expired
  rw [hd]
  exact ⟨decide_eq_true (hmono hi), rfl⟩

/-- Exploration goes no further than the state it starts from. -/
theorem explore_spent {i : Nat} (hev : Steady (α := α) s.evaluator)
    (hmono : Monotone s.clock.reading) (hd : q.deadline = some (s.clock.reading i))
    (hi : i ≤ r.trace.readings) (h : r.graph.Alike true (Graph.empty 0)) (a : α) (depth : Nat) :
    Ends (explore s q depth a) r
      (fun _ r' => ∃ x, measured s.evaluator a = .ok x ∧ r'.graph.Alike true (Graph.lone a x))
      fun e _ => measured s.evaluator a = .error e := by
  cases depth with
  | zero => exact (visit_steady hev a h).imp_ok fun _ _ h => h.1
  | succ depth =>
    refine Ends.bind (visit_steady hev a h) fun _ r₁ ⟨⟨x, hx, hg₁⟩, hr₁⟩ => ?_
    refine Ends.bind (expired_spent hmono hd (by omega)) ?_
    rintro _ r₂ ⟨rfl, hg₂⟩
    exact ends_pure.2 ⟨x, hx, hg₂ ▸ hg₁⟩

theorem expand_spent {i : Nat} (hev : Steady (α := α) s.evaluator)
    (hmono : Monotone s.clock.reading) (hd : q.deadline = some (s.clock.reading i))
    (hi : i ≤ r.trace.readings) (h : r.graph.Alike true (Graph.empty 0)) (a : α) (depth : Nat)
    (hdepth : depth ≤ depthCeiling) :
    Ends (expand s q a depth) r
      (fun suffix r' => suffix = [] ∧
        ∃ x, measured s.evaluator a = .ok x ∧ r'.graph.Alike true (Graph.lone a x))
      fun e _ => measured s.evaluator a = .error e := by
  refine (expand_ends hdepth (explore_spent hev hmono hd hi h a depth)).imp_ok ?_
  rintro suffix r' ⟨⟨x, hx, hg⟩, rfl⟩
  rw [hg.remaining, Graph.remaining_lone]
  exact ⟨rfl, x, hx, hg⟩

omit [Agent α] [Evaluator ε α] in
/-- A search ends with what its graph has to say. -/
theorem finish_found {g : Graph} {strategy : String} {start : Nat} (h : r.graph.Alike true g) :
    Ends (finish s c strategy start) r (fun t _ => g.found = .ok t.found)
      fun e _ => g.found = .error e := by
  refine finish_rule (fun h _ => h) ?_
  unfold Ends SearchM.bestPath Graph.found
  rcases h.bestPath with ⟨t, t', q, q', ht, ht', htt⟩ | ⟨e, q, q', he, he'⟩
  · rw [ht, ht']
    exact congrArg Except.ok htt.found_eq.symm
  · rw [he, he']

/-- There is no time, and the clock does not go back. -/
structure Clock.Spent (c : SearchConfig) (k : Clock) : Prop where
  zero : c.timeout.nanoseconds = 0
  mono : Monotone k.reading
  /-- each reading is a point in time -/
  isSome (i : Nat) : (deadlineAfter (k.reading i) c.timeout).isSome

omit [Agent α] [Evaluator ε α] in
theorem roundParams_spent (hk : s.clock.Spent c.toSearchConfig) {width : Nat} {mode : EvalMode}
    {ranking : Bool} {start steps : Nat} {E : SearchError → Run α → Prop} :
    Ends (roundParams s width mode ranking start (c.roundBudget steps)) r
      (fun q r' => (∃ i, q.deadline = some (s.clock.reading i) ∧ i ≤ r'.trace.readings) ∧
        r'.graph = r.graph) E := by
  have hshare : (c.roundBudget steps).nanoseconds = 0 := by
    show c.timeout.nanoseconds / _ = 0
    rw [hk.zero, Nat.zero_div]
  exact ⟨⟨r.trace.readings, Clock.deadlineAfter_zero (hk.isSome _) hk.zero hshare,
    Nat.le_succ _⟩, rfl⟩

/-- A greedy search commits nothing. -/
theorem greedyRounds_spent (hev : Steady (α := α) s.evaluator)
    (hk : s.clock.Spent c.toSearchConfig) {start steps lookahead : Nat}
    (hdepth : lookahead ≤ depthCeiling) (h : r.graph.Alike true (Graph.empty 0)) (left : Nat)
    (a : α) :
    Ends (greedyRounds s c p start steps lookahead left a) r
      (fun final r' => final = a ∧ (r'.graph.Alike true (Graph.empty 0) ∨
        ∃ x, measured s.evaluator a = .ok x ∧ r'.graph.Alike true (Graph.lone a x)))
      fun e _ => measured s.evaluator a = .error e := by
  cases left with
  | zero => exact ⟨rfl, .inl h⟩
  | succ left =>
    refine Ends.bind (roundParams_spent hk) ?_
    rintro q r₁ ⟨⟨i, hd, hi⟩, hg₁⟩
    refine Ends.bind (expand_spent hev hk.mono hd hi (hg₁ ▸ h) a _
      ((Nat.min_le_left _ _).trans hdepth)) ?_
    rintro _ r₂ ⟨rfl, hlone⟩
    exact ⟨rfl, .inr hlone⟩

/-- Without time, a greedy search finds the state that it starts from. -/
theorem greedySearch_spent (hev : Steady (α := α) s.evaluator)
    (hk : s.clock.Spent c.toSearchConfig) (a : α) (p : GreedyParams) (r : Run α) :
    (answer (greedySearch s c a p) r).map Table.found = standing s.evaluator c a p := by
  refine Ends.answer_eq ?_
  unfold greedySearch depthOf standing
  cases c.checkedDepth p.steps with
  | error e => exact ends_throw.2 rfl
  | ok steps =>
    cases hlookahead : c.checkedDepth p.lookahead with
    | error e => exact ends_throw.2 rfl
    | ok lookahead =>
      have hdepth := (SearchConfig.checkedDepth_le hlookahead).trans c.valid.2
      have hfinish : ∀ (start : Nat) (x : Float) (r : Run α),
          measured s.evaluator (Agent.forget a) = .ok x →
          r.graph.Alike true (Graph.lone (Agent.forget a) x) →
          Ends (finish s c "greedy" start) r
            (fun t _ => rooted s.evaluator (Agent.forget a) = .ok t.found)
            fun e _ => rooted s.evaluator (Agent.forget a) = .error e := by
        intro start x r hx hlone
        rw [rooted_ok hx]
        exact finish_found hlone
      show Ends _ r (fun (t : Table) _ => rooted s.evaluator (Agent.forget a) = .ok t.found)
        fun e _ => rooted s.evaluator (Agent.forget a) = .error e
      rw [SearchM.ofExcept, SearchM.ofExcept, pure_bind, pure_bind]
      refine Ends.bind now_ends fun start r₁ _ => ?_
      refine Ends.bind (report_ends _) fun _ r₂ _ => ends_bind.2 (ends_changeGraph.2 ?_)
      have hempty : (Graph.empty c.seed).Alike true (Graph.empty 0) := Graph.alike_empty Bool.noConfusion
      refine Ends.bind ((greedyRounds_spent (r := ⟨.empty c.seed, r₂.trace⟩) hev hk hdepth hempty
        steps (Agent.forget a)).imp_error fun e _ he => rooted_error he) ?_
      rintro _ r₃ ⟨rfl, hgraph⟩
      refine ends_bind.2 (ends_graph.2 ?_)
      rcases hgraph with hnone | ⟨x, hx, hlone⟩
      · rw [hnone.isEmpty]
        refine Ends.bind (roundParams_spent hk) ?_
        rintro q r₄ ⟨⟨i, hd, hi⟩, hg₄⟩
        refine Ends.bind (Ends.discard ((expand_spent hev hk.mono hd hi (hg₄ ▸ hnone)
          (Agent.forget a) 0 (Nat.zero_le _)).imp_error fun e _ he => rooted_error he)) ?_
        rintro _ r₅ ⟨_, -, x, hx, hlone⟩
        exact hfinish _ x r₅ hx hlone
      · rw [hlone.isEmpty, Graph.isEmpty_lone]
        exact hfinish _ x r₃ hx hlone

/-! ## Searches on their own -/

/-- The clock makes no difference to the budget of a search of so many rounds: time is never
    up, or there is none. -/
inductive Clock.Idle (c : SearchConfig) (rounds : Nat) (k : Clock) : Prop
  | ample : k.Keeps (c.roundBudget rounds) → Idle c rounds k
  | none : k.Spent c → Idle c rounds k

theorem Clock.Keeps.not_spent {c : SearchConfig} {rounds : Nat} {k k' : Clock}
    (h : k.Keeps (c.roundBudget rounds)) (h' : k'.Spent c) : False := by
  have hpos := h 0 0
  have hle := c.roundBudget_le rounds
  have hzero := h'.zero
  omega

/-- **A greedy search** finds the same on any run and with any readings of its clock, if these
    make no difference to the budget and no score depends on the turn. -/
theorem greedySearch_alone {reading : Nat → Nat} (hev : Steady (α := α) s.evaluator)
    (hk : s.clock.Idle c.toSearchConfig p.steps.toNat)
    (hk' : Clock.Idle c.toSearchConfig p.steps.toNat { s.clock with reading }) :
    (answer (greedySearch s c a p) r).map Table.found =
      (answer (greedySearch ⟨s.evaluator, { s.clock with reading }⟩ c a p) r').map Table.found := by
  cases hk with
  | ample hkeeps =>
    cases hk' with
    | ample hkeeps' => exact greedySearch_apart hev hkeeps hkeeps'
    | none hspent' => exact (hkeeps.not_spent hspent').elim
  | none hspent =>
    cases hk' with
    | ample hkeeps' => exact (hkeeps'.not_spent hspent).elim
    | none hspent' =>
      rw [greedySearch_spent hev hspent a p r]
      exact (greedySearch_spent (s := ⟨s.evaluator, { s.clock with reading }⟩) hev hspent' a p
        r').symm

end

end ScheduleSearch

/-
  Two searches side by side.

  `Pairs x x' r r' Q` says of two computations, started on two runs, that both end with
  answers, of which `Q` holds, or both with the same error.  There is a rule for each way
  to build a computation, and one fact for each primitive.

  * `Abreast`: runs that have asked for as many scores and, if their clocks are tied to
    each other, read them as often; their graphs are related as well;
  * `Clock.Due`: deadlines that two clocks reach together, or never;
  * `Agree`: evaluators with the same measured scores and, if candidates are ranked, the
    same rankings;
  * **`expand_pairs`**: with all of these, expansions keep alike graphs alike, and say
    the same about the way to the best state;
  * `finish_pairs`: so the searches end with alike tables.
-/
import ScheduleSearch.Proofs.Resemblance
import ScheduleSearch.Search.Strategy.Basic

namespace ScheduleSearch

/-! ## Clocks -/

namespace Clock

/-- Readings of two clocks, the same turn of both if they are tied. -/
def Reads (tied : Prop) (k k' : Clock) (t t' : Nat) : Prop :=
  ∃ i i', t = k.reading i ∧ t' = k'.reading i' ∧ (tied → i = i')

/-- The `i`-th reading reaches the deadline. -/
def Passes (k : Clock) (deadline : Option Nat) (i : Nat) : Prop :=
  ∃ t, deadline = some t ∧ t ≤ k.reading i

/-- Deadlines that the clocks reach together. -/
structure Due (tied : Prop) (k k' : Clock) (d d' : Option Nat) : Prop where
  passes {i i' : Nat} : (tied → i = i') → (k.Passes d i ↔ k'.Passes d' i')
  isNone : tied → (d = none ↔ d' = none)

end Clock

/-- Evaluators with the same measured scores and, if candidates are ranked, the same
    rankings. -/
structure Agree {ε ε' : Type} (α : Type) [Evaluator ε α] [Evaluator ε' α] (ranked : Bool)
    (ev : ε) (ev' : ε') : Prop where
  score (turn : Nat) (a : α) :
    Evaluator.score ev turn a .loopNest = Evaluator.score ev' turn a .loopNest
  rank : ranked = true → ∀ (turn : Nat) (a : α) (mode : EvalMode),
    Evaluator.rank ev turn a mode = Evaluator.rank ev' turn a mode

/-- Settings that follow the same candidates until they are due. -/
structure ExpandParams.Alike (ranked : Bool) (tied : Prop) (k k' : Clock) (p p' : ExpandParams) :
    Prop where
  width : p.width = p'.width
  ranking : p.ranking = ranked
  ranking' : p'.ranking = ranked
  mode : ranked = true → p.mode = p'.mode
  due : k.Due tied k' p.deadline p'.deadline

/-- Runs that have asked for as many scores and, if their clocks are tied, read these as
    often; `G` holds of their graphs. -/
structure Abreast {α : Type} (G : Graph → Graph → Prop) (tied : Prop) (r r' : Run α) : Prop where
  graph : G r.graph r'.graph
  turn : r.trace.scored.size = r'.trace.scored.size
  readings : tied → r.trace.readings = r'.trace.readings

section Reports

variable {α : Type} {G : Graph → Graph → Prop} {tied : Prop} {r r' : Run α}

/-- A report in one of the runs leaves them abreast. -/
theorem Abreast.report_left (h : Abreast G tied r r') (e : Event) :
    Abreast G tied { r with trace := r.trace.report e } r' :=
  ⟨h.graph, h.turn, h.readings⟩

theorem Abreast.report_right (h : Abreast G tied r r') (e : Event) :
    Abreast G tied r { r' with trace := r'.trace.report e } :=
  ⟨h.graph, h.turn, h.readings⟩

end Reports

namespace SearchM

variable {α β β' γ γ' ε ε' : Type}

/-- Where two computations end: both with answers of which `Q` holds, or both with the
    same error. -/
def Pairs (x : SearchM α β) (x' : SearchM α β') (r r' : Run α)
    (Q : β → β' → Run α → Run α → Prop) : Prop :=
  match x r, x' r' with
  | .ok v q, .ok v' q' => Q v v' q q'
  | .error e _, .error e' _ => e = e'
  | .ok _ _, .error _ _ | .error _ _, .ok _ _ => False

section Rules

variable {x : SearchM α β} {x' : SearchM α β'} {f : β → SearchM α γ} {f' : β' → SearchM α γ'}
  {r r' : Run α} {Q Q' : β → β' → Run α → Run α → Prop}

theorem Pairs.imp (h : Pairs x x' r r' Q) (hQ : ∀ v v' q q', Q v v' q q' → Q' v v' q q') :
    Pairs x x' r r' Q' := by
  unfold Pairs at h ⊢
  cases hx : x r <;> cases hx' : x' r' <;> rw [hx, hx'] at h
  · exact hQ _ _ _ _ h
  · exact h
  · exact h
  · exact h

theorem pairs_pure {v : β} {v' : β'} :
    Pairs (pure v : SearchM α β) (pure v' : SearchM α β') r r' Q ↔ Q v v' r r' := Iff.rfl

theorem pairs_throw {e : SearchError} :
    Pairs (throw e : SearchM α β) (throw e : SearchM α β') r r' Q := rfl

theorem Pairs.bind {Q' : γ → γ' → Run α → Run α → Prop} (h : Pairs x x' r r' Q)
    (hf : ∀ v v' q q', Q v v' q q' → Pairs (f v) (f' v') q q' Q') :
    Pairs (x >>= f) (x' >>= f') r r' Q' := by
  unfold Pairs at h
  show match EStateM.bind x f r, EStateM.bind x' f' r' with
    | .ok v q, .ok v' q' => Q' v v' q q'
    | .error e _, .error e' _ => e = e'
    | .ok _ _, .error _ _ | .error _ _, .ok _ _ => False
  unfold EStateM.bind
  cases hx : x r <;> cases hx' : x' r' <;> rw [hx, hx'] at h
  · exact hf _ _ _ _ h
  · exact h.elim
  · exact h.elim
  · exact h

theorem Pairs.discard (h : Pairs x x' r r' Q) :
    Pairs (discard x) (discard x') r r' fun _ _ q q' => ∃ v v', Q v v' q q' :=
  h.bind fun v v' _ _ hv => ⟨v, v', hv⟩

theorem pairs_modifyGet {f : Run α → β × Run α} {f' : Run α → β' × Run α} :
    Pairs (modifyGet f : SearchM α β) (modifyGet f' : SearchM α β') r r' Q ↔
      Q (f r).1 (f' r').1 (f r).2 (f' r').2 := Iff.rfl

theorem pairs_changeGraph {f f' : Graph → Graph} {Q : PUnit → PUnit → Run α → Run α → Prop} :
    Pairs (changeGraph f) (changeGraph f') r r' Q ↔
      Q ⟨⟩ ⟨⟩ { r with graph := f r.graph } { r' with graph := f' r'.graph } := Iff.rfl

theorem pairs_graph_bind {f f' : Graph → SearchM α β} {Q : β → β → Run α → Run α → Prop} :
    Pairs (graph >>= f) (graph >>= f') r r' Q ↔ Pairs (f r.graph) (f' r'.graph) r r' Q := Iff.rfl

theorem pairs_report_left {e : Event} {f : PUnit → SearchM α β} :
    Pairs (report e >>= f) x' r r' Q ↔
      Pairs (f ⟨⟩) x' { r with trace := r.trace.report e } r' Q := Iff.rfl

theorem pairs_report_right {e : Event} {f' : PUnit → SearchM α β'} :
    Pairs x (report e >>= f') r r' Q ↔
      Pairs x (f' ⟨⟩) r { r' with trace := r'.trace.report e } Q := Iff.rfl

/-- A computed answer is the same in both runs, or the same error. -/
theorem pairs_ofExcept {y : Except SearchError β} {Q : β → β → Run α → Run α → Prop}
    (h : ∀ v, y = .ok v → Q v v r r') : Pairs (ofExcept y) (ofExcept y) r r' Q := by
  cases y with
  | ok v => exact h v rfl
  | error e => exact pairs_throw

variable {I : Run α → Run α → Prop}

/-- Loops over the same entries keep what each turn keeps. -/
theorem pairs_forM {f f' : β → SearchM α PUnit} {xs : List β}
    (hf : ∀ y ∈ xs, ∀ q q', I q q' → Pairs (f y) (f' y) q q' fun _ _ q q' => I q q') (h : I r r') :
    Pairs (xs.forM f) (xs.forM f') r r' fun _ _ q q' => I q q' := by
  induction xs generalizing r r' with
  | nil => exact h
  | cons y xs ih =>
    refine (hf y (by simp) r r' h).bind fun _ _ q q' hq => ?_
    exact ih (fun z hz => hf z (by simp [hz])) hq

/-- Mapped over the same entries, computations with the same answers have the same list
    of answers. -/
theorem pairs_mapM {f f' : β → SearchM α γ} {xs : List β}
    (hf : ∀ y ∈ xs, ∀ q q', I q q' → Pairs (f y) (f' y) q q' fun v v' q q' => v = v' ∧ I q q')
    (h : I r r') :
    Pairs (xs.mapM f) (xs.mapM f') r r' fun vs vs' q q' => vs = vs' ∧ I q q' := by
  induction xs generalizing r r' with
  | nil => exact ⟨rfl, h⟩
  | cons y xs ih =>
    rw [List.mapM_cons, List.mapM_cons]
    refine (hf y (by simp) r r' h).bind ?_
    rintro v _ q q' ⟨rfl, hq⟩
    refine (ih (fun z hz => hf z (by simp [hz])) hq).bind ?_
    rintro vs _ p p' ⟨rfl, hp⟩
    exact ⟨rfl, hp⟩

end Rules

/-! ## Primitives -/

variable {s : Setting ε} {s' : Setting ε'} {G : Graph → Graph → Prop} {ranked : Bool} {tied : Prop}
  {r r' : Run α} {p p' : ExpandParams} {start start' : Nat}

theorem report_pairs (h : Abreast G tied r r') (e e' : Event) :
    Pairs (report e) (report e') r r' fun _ _ q q' => Abreast G tied q q' :=
  ⟨h.graph, h.turn, h.readings⟩

theorem now_pairs (h : Abreast G tied r r') :
    Pairs (now s) (now s') r r' fun t t' q q' =>
      s.clock.Reads tied s'.clock t t' ∧ Abreast G tied q q' :=
  ⟨⟨_, _, rfl, rfl, h.readings⟩, h.graph, h.turn, fun ht => congrArg (· + 1) (h.readings ht)⟩

theorem elapsed_pairs (h : Abreast G tied r r') (start start' : Nat) :
    Pairs (elapsed s start) (elapsed s' start') r r' fun d d' q q' =>
      (∃ t t', s.clock.Reads tied s'.clock t t' ∧ d.nanoseconds = t - start ∧
        d'.nanoseconds = t' - start') ∧ Abreast G tied q q' :=
  (now_pairs h).bind fun t t' _ _ ⟨ht, hq⟩ => ⟨⟨t, t', ht, rfl, rfl⟩, hq⟩

theorem expired_pairs (hdue : s.clock.Due tied s'.clock p.deadline p'.deadline)
    (h : Abreast G tied r r') :
    Pairs (expired s p) (expired s' p') r r' fun late late' q q' =>
      late = late' ∧ Abreast G tied q q' := by
  unfold expired
  cases hd : p.deadline with
  | none =>
    cases hd' : p'.deadline with
    | none => exact ⟨rfl, h⟩
    | some d' =>
      -- only one clock is read, so they are not tied, and it never reaches the deadline
      have hnot : ¬ tied := fun ht => by simpa [hd, hd'] using hdue.isNone ht
      refine ⟨(decide_eq_false fun hle => ?_).symm, h.graph, h.turn, fun ht => absurd ht hnot⟩
      have hturn : tied → 0 = r'.trace.readings := fun ht => absurd ht hnot
      have := (hdue.passes hturn).2 ⟨d', hd', hle⟩
      simp [Clock.Passes, hd] at this
  | some d =>
    cases hd' : p'.deadline with
    | none =>
      have hnot : ¬ tied := fun ht => by simpa [hd, hd'] using hdue.isNone ht
      refine ⟨decide_eq_false fun hle => ?_, h.graph, h.turn, fun ht => absurd ht hnot⟩
      have hturn : tied → r.trace.readings = 0 := fun ht => absurd ht hnot
      have := (hdue.passes hturn).1 ⟨d, hd, hle⟩
      simp [Clock.Passes, hd'] at this
    | some d' =>
      have hiff := hdue.passes h.readings
      simp only [Clock.Passes, hd, hd', Option.some.injEq, exists_eq_left'] at hiff
      exact ⟨decide_eq_decide.2 hiff, h.graph, h.turn, fun ht => congrArg (· + 1) (h.readings ht)⟩

theorem roundParams_pairs {width : Nat} {mode mode' : EvalMode} {budget budget' : Duration}
    (hmode : ranked = true → mode = mode')
    (hdue : ∀ {t t'}, s.clock.Reads tied s'.clock t t' →
      s.clock.Due tied s'.clock (deadlineAfter t budget) (deadlineAfter t' budget'))
    (h : Abreast G tied r r') :
    Pairs (roundParams s width mode ranked start budget)
      (roundParams s' width mode' ranked start' budget') r r' fun p p' q q' =>
        p.Alike ranked tied s.clock s'.clock p' ∧ Abreast G tied q q' :=
  (now_pairs h).bind fun _ _ _ _ ⟨ht, hq⟩ => ⟨⟨rfl, rfl, rfl, hmode, hdue ht⟩, hq⟩

/-- A search may begin with a new graph after whatever there was before. -/
theorem freshGraph_pairs {seed seed' : UInt64} (hseed : ranked = false → seed = seed')
    (h : Abreast G tied r r') :
    Pairs (freshGraph seed) (freshGraph seed') r r' fun _ _ q q' =>
      Abreast (Graph.Alike ranked) tied q q' :=
  ⟨Graph.alike_empty hseed, h.turn, h.readings⟩

section Evaluators

variable [Evaluator ε α] [Evaluator ε' α]

theorem measure_pairs (hev : Agree α ranked s.evaluator s'.evaluator) (a : α)
    (h : Abreast G tied r r') :
    Pairs (measure s a) (measure s' a) r r' fun x x' q q' => x = x' ∧ Abreast G tied q q' := by
  unfold measure
  refine Pairs.bind (Q := fun answer answer' q q' => answer = answer' ∧ Abreast G tied q q') ?_ ?_
  · refine pairs_modifyGet.2 ⟨?_, h.graph, ?_, h.readings⟩
    · show Evaluator.score s.evaluator r.trace.scored.size a .loopNest =
        Evaluator.score s'.evaluator r'.trace.scored.size a .loopNest
      rw [hev.score, h.turn]
    · simp only [Trace.score, Array.size_push, h.turn]
  · rintro answer _ q q' ⟨rfl, hq⟩
    cases answer with
    | error err => exact pairs_throw
    | ok x =>
      dsimp only
      split
      · exact pairs_pure.2 ⟨rfl, hq⟩
      · exact pairs_throw

theorem rank_pairs (hev : Agree α true s.evaluator s'.evaluator) (a : α) (mode : EvalMode)
    (h : Abreast G tied r r') :
    Pairs (rank s a mode) (rank s' a mode) r r' fun xs xs' q q' =>
      xs = xs' ∧ Abreast G tied q q' := by
  unfold rank
  refine Pairs.bind (Q := fun answer answer' q q' => answer = answer' ∧ Abreast G tied q q') ?_ ?_
  · refine pairs_modifyGet.2 ⟨?_, h.graph, h.turn, h.readings⟩
    show Evaluator.rank s.evaluator r.trace.scored.size a mode =
      Evaluator.rank s'.evaluator r'.trace.scored.size a mode
    rw [hev.rank rfl, h.turn]
  · rintro answer _ q q' ⟨rfl, hq⟩
    cases answer with
    | error err => exact pairs_throw
    | ok ranked => exact pairs_pure.2 ⟨rfl, hq⟩

variable [Agent α] (hev : Agree α ranked s.evaluator s'.evaluator)
  (hp : p.Alike ranked tied s.clock s'.clock p')

/-- What is known of two alike searches after a step of both. -/
abbrev Both (ranked : Bool) (tied : Prop) (v v' : β) (q q' : Run α) : Prop :=
  v = v' ∧ Abreast (Graph.Alike ranked) tied q q'

include hev

theorem visit_pairs (a : α) (h : Abreast (Graph.Alike ranked) tied r r') :
    Pairs (visit s p a) (visit s' p' a) r r' (Both ranked tied) := by
  unfold visit
  refine (elapsed_pairs h p.start p'.start).bind fun time time' q q' ⟨_, hq⟩ => ?_
  refine (measure_pairs hev a hq).bind ?_
  rintro score _ u u' ⟨rfl, hu⟩
  refine pairs_changeGraph.2 ⟨rfl, ?_, hu.turn, hu.readings⟩
  exact (hu.graph.recordDepthTime _ _ _).record _ _ _ _ _

include hp

theorem choose_pairs (a : α) (h : Abreast (Graph.Alike ranked) tied r r') :
    Pairs (choose s p a) (choose s' p' a) r r' (Both ranked tied) := by
  unfold choose
  rw [hp.ranking, hp.ranking', ← hp.width]
  cases ranked with
  | true =>
    rw [hp.mode rfl]
    refine (rank_pairs hev a p'.mode h).bind ?_
    rintro xs _ q q' ⟨rfl, hq⟩
    exact ⟨rfl, hq⟩
  | false =>
    obtain ⟨hactions, hgraph⟩ := h.graph.candidates rfl p.width (Agent.available a)
    exact ⟨hactions, hgraph, h.turn, h.readings⟩

/-- Exploration goes through the same states in both runs. -/
theorem explore_pairs (depth : Nat) (a : α) (h : Abreast (Graph.Alike ranked) tied r r') :
    Pairs (explore s p depth a) (explore s' p' depth a) r r' (Both ranked tied) := by
  -- on the depth: both runs follow the same actions, and are abreast after each of them
  induction depth generalizing a r r' with
  | zero => exact visit_pairs hev a h
  | succ depth ih =>
    unfold explore
    refine (visit_pairs hev a h).bind fun _ _ q q' ⟨_, hq⟩ => ?_
    refine (expired_pairs hp.due hq).bind ?_
    rintro late _ u u' ⟨rfl, hu⟩
    cases late with
    | true => exact pairs_pure.2 ⟨rfl, hu⟩
    | false =>
      refine (choose_pairs hev hp a hu).bind ?_
      rintro actions _ w w' ⟨rfl, hw⟩
      refine (pairs_forM (I := Abreast (Graph.Alike ranked) tied) ?_ hw).imp
        fun _ _ _ _ hz => ⟨rfl, hz⟩
      intro action _ z z' hz
      refine (pairs_ofExcept (Q := Both ranked tied) fun _ _ => ⟨rfl, hz⟩).bind ?_
      rintro child _ y y' ⟨rfl, hy⟩
      refine Pairs.bind (Q := Both ranked tied) (pairs_changeGraph.2 ⟨rfl, ?_, hy.turn, hy.readings⟩)
        fun _ _ y y' ⟨_, hy⟩ => ?_
      · exact hy.graph.recordEdge _
      · exact (ih child hy).imp fun _ _ _ _ hx => hx.2

/-- **Expansions in step** say the same about the way to the best state. -/
theorem expand_pairs (a : α) (steps : Int) (h : Abreast (Graph.Alike ranked) tied r r') :
    Pairs (expand s p a steps) (expand s' p' a steps) r r' (Both ranked tied) := by
  unfold expand
  split
  · exact pairs_throw
  split
  · exact pairs_throw
  refine (explore_pairs hev hp steps.toNat a h).bind fun _ _ q q' ⟨_, hq⟩ => ?_
  exact pairs_graph_bind.2 ⟨hq.graph.remaining _, hq⟩

end Evaluators

/-! ## The end of a search -/

/-- What is known of two alike searches at their ends. -/
abbrev Done (tied : Prop) (t t' : Table) (q q' : Run α) : Prop :=
  t.Alike t' ∧ Abreast (fun _ _ => True) tied q q'

theorem bestPath_pairs (h : Abreast (Graph.Alike ranked) tied r r') :
    Pairs bestPath bestPath r r' (Done tied) := by
  unfold Pairs bestPath
  rcases h.graph.bestPath with ⟨t, t', q, q', ht, ht', htt⟩ | ⟨e, q, q', he, he'⟩
  · rw [ht, ht']
    exact ⟨htt, trivial, h.turn, h.readings⟩
  · rw [he, he']

/-- Searches end with alike tables, whether or not they draw their graphs. -/
theorem finish_pairs {c c' : CheckedConfig} {name name' : String}
    (h : Abreast (Graph.Alike ranked) tied r r') :
    Pairs (finish s c name start) (finish s' c' name' start') r r' (Done tied) := by
  unfold finish
  refine (bestPath_pairs h).bind fun t t' q q' ⟨ht, hq⟩ => ?_
  refine pairs_graph_bind.2 ?_
  have hclose : ∀ (e e' : Duration → Event) {u u' : Run α},
      Abreast (fun _ _ => True) tied u u' →
      Pairs (do let time ← elapsed s start; report (e time); return t)
        (do let time ← elapsed s' start'; report (e' time); return t') u u' (Done tied) :=
      fun e e' u u' hu => by
    refine (elapsed_pairs hu start start').bind fun _ _ w w' ⟨_, hw⟩ => ?_
    exact (report_pairs hw _ _).bind fun _ _ _ _ hz => ⟨ht, hz⟩
  cases c.debug <;> cases c'.debug
  · exact hclose _ _ hq
  · exact pairs_report_right.2 (hclose _ _ (hq.report_right _))
  · exact pairs_report_left.2 (hclose _ _ (hq.report_left _))
  · exact pairs_report_left.2 (pairs_report_right.2
      (hclose _ _ ((hq.report_left _).report_right _)))

end SearchM

end ScheduleSearch

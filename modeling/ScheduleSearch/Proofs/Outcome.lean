/-
  How the computations of a search end.

  `Ends x r Q E` says of the computation `x`, started on the run `r`, that `Q`
  holds of its answer and the run it leaves, or `E` of its error and the run it
  leaves.  There is a rule for each way to build a computation, and one fact for
  each primitive.

  * Most primitives are quiet (`Quiet`): they leave the graph alone, but for its
    sampler, and ask for no score;
  * `depthOf_ends`: a count in range is a depth below the ceiling;
  * `measure_ends`: a measured score is what the evaluator answers at this turn,
    and it is finite;
  * `visit_ends`: a visit records a state with its score (`Visited`);
  * `choose_ends`: the actions that are followed from a state are the first of its
    ranking, or drawn from those that it lists (`Chosen`);
  * `stepped_ends`, `replayed_ends`: only a rejected action makes these fail;
  * **`explore_keeps`**: what every visit keeps, exploration keeps, and **`expand_keeps`**:
    so does an expansion, also when it fails;
  * `finish_ends`: the table of a search is that of the best path.

  `Blames` are the errors that the evaluator is to blame for.
-/
import ScheduleSearch.Proofs.BackWalk
import ScheduleSearch.Proofs.World
import ScheduleSearch.Search.Strategy.Basic

namespace ScheduleSearch

/-- The same graph, but perhaps for the sampler. -/
def Graph.Like (g g' : Graph) : Prop :=
  ∃ sampler, g' = { g with sampler }

/-- The configuration allows a count. -/
def SearchConfig.Allows (c : SearchConfig) (count : Int) : Prop :=
  0 ≤ count ∧ count ≤ c.maxDepth

namespace SearchM

variable {α ε β γ : Type}

/-- Where a computation ends: `Q` holds of an answer, `E` of an error. -/
def Ends (x : SearchM α β) (r : Run α) (Q : β → Run α → Prop) (E : SearchError → Run α → Prop) :
    Prop :=
  match x r with
  | .ok v r' => Q v r'
  | .error e r' => E e r'

section Rules
variable {x : SearchM α β} {f : β → SearchM α γ} {r : Run α} {Q Q' : β → Run α → Prop}
  {E E' : SearchError → Run α → Prop}

theorem Ends.imp (h : Ends x r Q E) (hQ : ∀ v r', Q v r' → Q' v r')
    (hE : ∀ e r', E e r' → E' e r') : Ends x r Q' E' := by
  unfold Ends at h ⊢
  split
  · next v r' hx => rw [hx] at h; exact hQ v r' h
  · next e r' hx => rw [hx] at h; exact hE e r' h

theorem Ends.imp_ok (h : Ends x r Q E) (hQ : ∀ v r', Q v r' → Q' v r') : Ends x r Q' E :=
  h.imp hQ fun _ _ => id

theorem Ends.imp_error (h : Ends x r Q E) (hE : ∀ e r', E e r' → E' e r') : Ends x r Q E' :=
  h.imp (fun _ _ => id) hE

theorem Ends.and (h : Ends x r Q E) (h' : Ends x r Q' E') :
    Ends x r (fun v r' => Q v r' ∧ Q' v r') (fun e r' => E e r' ∧ E' e r') := by
  unfold Ends at h h' ⊢
  split
  · next v r' hx => rw [hx] at h h'; exact ⟨h, h'⟩
  · next e r' hx => rw [hx] at h h'; exact ⟨h, h'⟩

theorem Ends.ok {v : β} {r' : Run α} (h : Ends x r Q E) (hx : x r = .ok v r') : Q v r' := by
  rwa [Ends, hx] at h

theorem Ends.result (h : Ends x r Q E) :
    (∃ v r', x r = .ok v r' ∧ Q v r') ∨ ∃ e r', x r = .error e r' ∧ E e r' := by
  unfold Ends at h
  cases hx : x r with
  | ok v r' => rw [hx] at h; exact .inl ⟨v, r', rfl, h⟩
  | error e r' => rw [hx] at h; exact .inr ⟨e, r', rfl, h⟩

theorem bind_of_ok {v : β} {r' : Run α} (h : x r = .ok v r') : (x >>= f) r = f v r' := by
  show EStateM.bind x f r = _
  rw [EStateM.bind, h]

theorem bind_of_error {e : SearchError} {r' : Run α} (h : x r = .error e r') :
    (x >>= f) r = .error e r' := by
  show EStateM.bind x f r = _
  rw [EStateM.bind, h]

theorem ends_pure {v : β} : Ends (pure v : SearchM α β) r Q E ↔ Q v r := Iff.rfl

theorem ends_throw {e : SearchError} : Ends (throw e : SearchM α β) r Q E ↔ E e r := Iff.rfl

theorem ends_bind {Q : γ → Run α → Prop} :
    Ends (x >>= f) r Q E ↔ Ends x r (fun v r' => Ends (f v) r' Q E) E := by
  unfold Ends
  show (match EStateM.bind x f r with | .ok v r' => Q v r' | .error e r' => E e r') ↔ _
  unfold EStateM.bind
  cases x r <;> rfl

theorem Ends.bind {P : β → Run α → Prop} {Q : γ → Run α → Prop} (h : Ends x r P E)
    (hf : ∀ v r', P v r' → Ends (f v) r' Q E) : Ends (x >>= f) r Q E :=
  ends_bind.2 (h.imp hf fun _ _ he => he)

theorem Ends.discard (h : Ends x r Q E) : Ends (discard x) r (fun _ r' => ∃ v, Q v r') E :=
  Ends.bind h fun v _ hv => ⟨v, hv⟩

theorem ends_changeGraph {f : Graph → Graph} {Q : PUnit → Run α → Prop} :
    Ends (changeGraph f) r Q E ↔ Q ⟨⟩ { r with graph := f r.graph } := Iff.rfl

theorem ends_modifyGet {f : Run α → β × Run α} :
    Ends (modifyGet f : SearchM α β) r Q E ↔ Q (f r).1 (f r).2 := Iff.rfl

theorem ends_graph {Q : Graph → Run α → Prop} : Ends graph r Q E ↔ Q r.graph r := Iff.rfl

/-- A loop keeps what each turn keeps; `I` may speak of the entries that are
    done. -/
theorem ends_forM {f : β → SearchM α PUnit} (I : List β → Run α → Prop) :
    ∀ (xs done : List β) {r : Run α}, I done r →
      (∀ y ∈ xs, ∀ done r, I done r → Ends (f y) r (fun _ r' => I (done ++ [y]) r') E) →
      Ends (xs.forM f) r (fun _ r' => I (done ++ xs) r') E
  | [], done, r, h, _ => by rw [List.append_nil]; exact h
  | y :: xs, done, r, h, hf => by
    refine Ends.bind (hf y (by simp) done r h) fun _ r' h' => ?_
    have := ends_forM I xs (done ++ [y]) h' fun z hz => hf z (by simp [hz])
    rwa [List.append_assoc] at this

/-- Mapping a computation over a list keeps what each turn keeps; `I` may speak of the
    entries that are done and of their answers. -/
theorem ends_mapM_rule {f : β → SearchM α γ} (I : List β → List γ → Run α → Prop) :
    ∀ (xs done : List β) (ws : List γ) {r : Run α}, I done ws r →
      (∀ y ∈ xs, ∀ done ws r, I done ws r →
        Ends (f y) r (fun v r' => I (done ++ [y]) (ws ++ [v]) r') E) →
      Ends (xs.mapM f) r (fun vs r' => I (done ++ xs) (ws ++ vs) r') E := by
  intro xs
  induction xs with
  | nil =>
    intro done ws r h _
    exact ends_pure.2 (by simpa using h)
  | cons y xs ih =>
    intro done ws r h hf
    rw [List.mapM_cons]
    refine Ends.bind (hf y List.mem_cons_self done ws r h) fun v r₁ h₁ => ?_
    refine Ends.bind (ih (done ++ [y]) (ws ++ [v]) h₁ fun z hz =>
      hf z (List.mem_cons_of_mem _ hz)) fun vs r₂ h₂ => ends_pure.2 ?_
    simpa using h₂

/-- Mapping a computation over a list collects an answer for each entry. -/
theorem ends_mapM {f : β → SearchM α γ} {P : β → γ → Prop} {xs : List β}
    (hf : ∀ y ∈ xs, Ends (f y) r (fun v r' => r' = r ∧ P y v) E) :
    Ends (xs.mapM f) r (fun vs r' => r' = r ∧ (∀ v ∈ vs, ∃ y ∈ xs, P y v) ∧
      ∀ y ∈ xs, ∃ v ∈ vs, P y v) E := by
  refine ends_mapM_rule (fun done ws r' => r' = r ∧ (∀ v ∈ ws, ∃ y ∈ done, P y v) ∧
    ∀ y ∈ done, ∃ v ∈ ws, P y v) xs [] [] ⟨rfl, nofun, nofun⟩ ?_
  rintro y hy done ws _ ⟨rfl, hl, hr⟩
  refine (hf y hy).imp_ok ?_
  rintro v _ ⟨rfl, hv⟩
  refine ⟨rfl, fun w hw => ?_, fun z hz => ?_⟩
  · rcases List.mem_append.1 hw with hw | hw
    · obtain ⟨z, hz, hzw⟩ := hl w hw
      exact ⟨z, List.mem_append_left _ hz, hzw⟩
    · obtain rfl := List.mem_singleton.1 hw
      exact ⟨y, List.mem_concat_self, hv⟩
  · rcases List.mem_append.1 hz with hz | hz
    · obtain ⟨w, hw, hzw⟩ := hr z hz
      exact ⟨w, List.mem_append_left _ hw, hzw⟩
    · obtain rfl := List.mem_singleton.1 hz
      exact ⟨v, List.mem_concat_self, hv⟩

theorem ends_ofExcept {y : Except SearchError β} :
    Ends (ofExcept y) r Q E ↔ (∀ v, y = .ok v → Q v r) ∧ ∀ e, y = .error e → E e r := by
  cases y <;> simp [ofExcept, ends_pure, ends_throw]

end Rules

/-! ## Quiet computations -/

/-- A run that goes on without a change of the graph and without a score. -/
structure Quiet (r r' : Run α) : Prop where
  graph : r.graph.Like r'.graph
  scored : r'.trace.scored = r.trace.scored

theorem Quiet.refl (r : Run α) : Quiet r r := ⟨⟨r.graph.sampler, rfl⟩, rfl⟩

theorem Quiet.grows {r r' : Run α} (h : Quiet r r') : r.graph.Grows r'.graph := by
  obtain ⟨σ, hg⟩ := h.graph
  rw [hg]
  exact ⟨id, id⟩

theorem Quiet.trans {r₁ r₂ r₃ : Run α} (h : Quiet r₁ r₂) (h' : Quiet r₂ r₃) : Quiet r₁ r₃ := by
  obtain ⟨σ, hσ⟩ := h.graph
  obtain ⟨σ', hσ'⟩ := h'.graph
  exact ⟨⟨σ', by rw [hσ', hσ]⟩, h'.scored.trans h.scored⟩

/-- A run with a new graph, which asked for no score yet. -/
structure Fresh (seed : UInt64) (r r' : Run α) : Prop where
  graph : (Graph.empty seed).Like r'.graph
  scored : r'.trace.scored = r.trace.scored

theorem Quiet.fresh {r r' : Run α} (h : Quiet r r') (seed : UInt64) :
    Fresh seed r { r' with graph := .empty seed } :=
  ⟨⟨_, rfl⟩, h.scored⟩

theorem Fresh.quiet {seed : UInt64} {r r' r'' : Run α} (h : Fresh seed r r') (hq : Quiet r' r'') :
    Fresh seed r r'' := by
  obtain ⟨σ, hσ⟩ := h.graph
  obtain ⟨σ', hσ'⟩ := hq.graph
  exact ⟨⟨σ', by rw [hσ', hσ]⟩, hq.scored.trans h.scored⟩

variable {r : Run α} {s : Setting ε} {E : SearchError → Run α → Prop}

theorem report_ends (e : Event) : Ends (report e) r (fun _ r' => Quiet r r') E :=
  ⟨⟨r.graph.sampler, rfl⟩, rfl⟩

theorem now_ends : Ends (now s) r (fun t r' => Quiet r r' ∧ ∃ i, t = s.clock.reading i) E :=
  ⟨⟨⟨r.graph.sampler, rfl⟩, rfl⟩, _, rfl⟩

theorem elapsed_ends (start : Nat) :
    Ends (elapsed s start) r
      (fun d r' => Quiet r r' ∧ ∃ i, d.nanoseconds = s.clock.reading i - start) E :=
  Ends.bind now_ends fun _ _ ⟨hq, i, hi⟩ => ⟨hq, i, by rw [hi]⟩

theorem roundParams_ends (width : Nat) (mode : EvalMode) (ranking : Bool) (start : Nat)
    (budget : Duration) :
    Ends (roundParams s width mode ranking start budget) r
      (fun p r' => Quiet r r' ∧
        ∃ i, p = ⟨width, mode, ranking, start, deadlineAfter (s.clock.reading i) budget⟩) E :=
  Ends.bind now_ends fun _ _ ⟨hq, i, hi⟩ => ⟨hq, i, by rw [hi]⟩

theorem depthOf_ends (c : CheckedConfig) (requested : Int) :
    Ends (depthOf c requested) r
      (fun d r' => r' = r ∧ d = requested.toNat ∧ d ≤ depthCeiling ∧ 0 ≤ requested)
      (fun _ r' => r' = r ∧ ¬ c.Allows requested) := by
  refine ends_ofExcept.2 ⟨fun d hd => ?_, fun e he => ⟨rfl, ?_⟩⟩
  · have hle := SearchConfig.checkedDepth_le hd
    have := c.valid.2
    unfold SearchConfig.checkedDepth at hd
    split at hd
    · cases hd
    split at hd
    · cases hd
      exact ⟨rfl, rfl, hle.trans this, by omega⟩
    · cases hd
  · unfold SearchConfig.checkedDepth at he
    rintro ⟨h0, hm⟩
    rw [if_neg (by omega), if_pos (by omega)] at he
    cases he

/-- No reading of the clock reaches the deadline. -/
def Unhurried (s : Setting ε) (p : ExpandParams) : Prop :=
  ∀ deadline, p.deadline = some deadline → ∀ i, s.clock.reading i < deadline

theorem expired_ends (p : ExpandParams) :
    Ends (expired s p) r (fun late r' => Quiet r r' ∧ (Unhurried s p → late = false)) E := by
  unfold expired
  cases hd : p.deadline with
  | none => exact ⟨.refl r, fun _ => rfl⟩
  | some deadline =>
    refine Ends.bind now_ends fun t r' ⟨hq, i, hi⟩ => ⟨hq, fun hp => ?_⟩
    have := hp deadline hd i
    exact decide_eq_false (by omega)

/-! ## The end of a search -/

/-- A search ends as its best path does, with a quiet report. -/
theorem finish_rule {s : Setting ε} {c : CheckedConfig} {strategy : String} {start : Nat}
    {Q : Table → Run α → Prop} (hquiet : ∀ {t r r'}, Q t r → Quiet r r' → Q t r')
    (h : Ends SearchM.bestPath r Q E) : Ends (finish s c strategy start) r Q E := by
  unfold finish
  refine Ends.bind h fun t r₁ h₁ => ends_bind.2 (ends_graph.2 ?_)
  have hclose : ∀ (e : Duration → Event) {r₂ : Run α}, Q t r₂ →
      Ends (do let time ← elapsed s start; report (e time); return t) r₂ Q E := fun e r₂ h₂ => by
    refine Ends.bind (elapsed_ends start) fun _ r₃ ⟨hq₃, _⟩ => ?_
    exact Ends.bind (report_ends _) fun _ r₄ hq₄ => ends_pure.2 (hquiet h₂ (hq₃.trans hq₄))
  split
  · exact Ends.bind (report_ends _) fun _ r₂ hq => hclose _ (hquiet h₁ hq)
  · exact hclose _ h₁

theorem finish_ends {s : Setting ε} {c : CheckedConfig} {strategy : String} {start : Nat}
    (hw : r.graph.Wired)
    (he : ∀ fp m, r.graph.node? fp = some m → r.graph.Entered fp m.actions)
    (hn : ∃ fp m, r.graph.node? fp = some m) :
    Ends (finish s c strategy start) r
      (fun t r' => r'.trace.scored = r.trace.scored ∧ r.graph.Remarked r'.graph ∧
        ∃ best ns xs, r.graph.bestNode? = some best ∧ r.graph.Chain (best :: ns) xs ∧
          t = ⟨"" :: xs.reverse, ((best :: ns).map (·.score)).reverse, r.graph.depthTimeCurve⟩)
      E := by
  obtain ⟨fp, m, hm⟩ := hn
  obtain ⟨best, ns, xs, g', hbest, hc, hpath, hmark⟩ := Graph.bestPath_ok hw he hm
  refine finish_rule ?_ ?_
  · rintro t r₁ r₂ ⟨hlog, hmark, ht⟩ hq
    obtain ⟨σ, hσ⟩ := hq.graph
    rw [hq.scored, hσ]
    exact ⟨hlog, ⟨hmark.nodes, hmark.edges⟩, ht⟩
  · unfold Ends SearchM.bestPath
    rw [hpath]
    exact ⟨rfl, hmark, best, ns, xs, hbest, hc, rfl⟩

/-! ## Asking the evaluator -/

/-- The errors that the evaluator has returned for one of the states, and the
    scores that are none. -/
inductive Blames [Evaluator ε α] (ev : ε) (states : α → Prop) (t : Trace α) : SearchError → Prop
  | score {b : α} {err : EvalError} : states b →
      Evaluator.score ev (t.scored.size - 1) b .loopNest = .error err →
      t.scored.back? = some ⟨b, .loopNest, .error err⟩ → Blames ev states t (.eval err)
  | nonFinite {b : α} {x : Float} : states b → ¬ x.isFinite →
      Evaluator.score ev (t.scored.size - 1) b .loopNest = .ok x →
      t.scored.back? = some ⟨b, .loopNest, .ok x⟩ →
      Blames ev states t (.eval (.nonFiniteScore x))
  | rank {b : α} {mode : EvalMode} {err : EvalError} : states b →
      Evaluator.rank ev t.scored.size b mode = .error err → Blames ev states t (.eval err)

theorem Blames.imp [Evaluator ε α] {ev : ε} {states states' : α → Prop} {t : Trace α}
    {e : SearchError} (h : Blames ev states t e) (hs : ∀ b, states b → states' b) :
    Blames ev states' t e := by
  cases h with
  | score hb ha hl => exact .score (hs _ hb) ha hl
  | nonFinite hb hx ha hl => exact .nonFinite (hs _ hb) hx ha hl
  | rank hb ha => exact .rank (hs _ hb) ha

theorem measure_ends [Evaluator ε α] (s : Setting ε) (a : α) :
    Ends (measure s a) r
      (fun x r' => r'.graph = r.graph ∧
        r'.trace.scored = r.trace.scored.push ⟨a, .loopNest, .ok x⟩ ∧
        Evaluator.score s.evaluator r.trace.scored.size a .loopNest = .ok x ∧ x.isFinite)
      (fun e r' => r'.graph = r.graph ∧
        (∃ answer, r'.trace.scored = r.trace.scored.push ⟨a, .loopNest, answer⟩) ∧
        Blames s.evaluator (· = a) r'.trace e) := by
  unfold measure
  refine ends_bind.2 (ends_modifyGet.2 ?_)
  dsimp only [Trace.score]
  cases ha : Evaluator.score s.evaluator r.trace.scored.size a .loopNest with
  | error err => exact ends_throw.2 ⟨rfl, ⟨_, rfl⟩, .score rfl (by simpa using ha) (by simp)⟩
  | ok x =>
    dsimp only
    split
    · next hx => exact ends_pure.2 ⟨rfl, rfl, rfl, hx⟩
    · next hx =>
      exact ends_throw.2 ⟨rfl, ⟨_, rfl⟩, .nonFinite rfl hx (by simpa using ha) (by simp)⟩

theorem rank_ends [Evaluator ε α] (s : Setting ε) (a : α) (mode : EvalMode) :
    Ends (rank s a mode) r
      (fun xs r' => Quiet r r' ∧ ∃ ranked,
        Evaluator.rank s.evaluator r.trace.scored.size a mode = .ok ranked ∧
          xs = ranked.map (·.action))
      (fun e r' => Quiet r r' ∧ Blames s.evaluator (· = a) r'.trace e) := by
  unfold rank
  refine ends_bind.2 (ends_modifyGet.2 ?_)
  dsimp only [Trace.rank]
  cases ha : Evaluator.rank s.evaluator r.trace.scored.size a mode with
  | error err => exact ends_throw.2 ⟨⟨⟨r.graph.sampler, rfl⟩, rfl⟩, .rank rfl ha⟩
  | ok ranked => exact ends_pure.2 ⟨⟨⟨r.graph.sampler, rfl⟩, rfl⟩, ranked, rfl, rfl⟩

/-- A run after `a` was recorded with its score. -/
def Visited [Agent α] [Evaluator ε α] (ev : ε) (a : α) (r r' : Run α) : Prop :=
  ∃ x time depthTimes sampler,
    Evaluator.score ev r.trace.scored.size a .loopNest = .ok x ∧ x.isFinite ∧
      r'.trace.scored = r.trace.scored.push ⟨a, .loopNest, .ok x⟩ ∧
      r'.graph = (Graph.record { r.graph with depthTimes, sampler } (fingerprint a)
        (Agent.history a) x time).2 ∧
      ∀ d, d ∈ depthTimes ↔ d = (Agent.history a).length ∨ d ∈ r.graph.depthTimes

section
variable [Agent α] [Evaluator ε α] {ev : ε} {a : α} {r' : Run α}

theorem Visited.knows_iff (h : Visited ev a r r') {fp : Fingerprint} {k : Nat} :
    r'.graph.Knows fp k ↔
      r.graph.Knows fp k ∨ fp = fingerprint a ∧ (Agent.history a).length ≤ k := by
  obtain ⟨x, time, times, σ, -, -, -, hg, -⟩ := h
  rw [hg, Graph.knows_record]
  rfl

theorem Visited.transitions_eq (h : Visited ev a r r') :
    r'.graph.transitions = r.graph.transitions := by
  obtain ⟨x, time, times, σ, -, -, -, hg, -⟩ := h
  obtain ⟨nodes, best, hr⟩ := Graph.record_edges { r.graph with depthTimes := times, sampler := σ }
    (fingerprint a) (Agent.history a) x time
  rw [hg, hr]

theorem Visited.wired (h : Visited ev a r r') (hw : r.graph.Wired) : r'.graph.Wired := by
  obtain ⟨x, time, times, σ, -, -, -, hg, -⟩ := h
  rw [hg]
  exact Graph.wired_record (hw.like times σ) _ _ _ _

theorem Visited.grows (h : Visited ev a r r') : r.graph.Grows r'.graph :=
  ⟨fun hk => h.knows_iff.2 (.inl hk), fun ht => by rwa [h.transitions_eq]⟩

end

theorem visit_ends [Agent α] [Evaluator ε α] (s : Setting ε) (p : ExpandParams) (a : α) :
    Ends (visit s p a) r (fun _ r' => Visited s.evaluator a r r')
      (fun e r' => r.graph.Like r'.graph ∧
        (∃ answer, r'.trace.scored = r.trace.scored.push ⟨a, .loopNest, answer⟩) ∧
        Blames s.evaluator (· = a) r'.trace e) := by
  unfold visit
  refine Ends.bind (elapsed_ends p.start) fun time r₁ ⟨⟨⟨σ, hσ⟩, hlog⟩, _⟩ => ?_
  refine Ends.bind ((measure_ends s a).imp_error fun e r₂ ⟨hg, hpush, he⟩ => ?_)
    fun x r₂ ⟨hg, hpush, hx, hfin⟩ => ends_changeGraph.2 ?_
  · exact ⟨⟨σ, by rw [hg, hσ]⟩, by rwa [hlog] at hpush, he⟩
  · obtain ⟨times, htimes, hin⟩ :=
      r₂.graph.recordDepthTime_depthTimes (Agent.history a).length time.seconds
    rw [hlog] at hpush hx
    have hgraph : { r₂.graph with depthTimes := times } =
        { r.graph with depthTimes := times, sampler := σ } := by rw [hg, hσ]
    refine ⟨x, time.seconds, times, σ, hx, hfin, hpush, ?_, fun d => ?_⟩
    · rw [htimes, hgraph]
    · rw [hin, hg, hσ]

/-- The actions that may be followed from a state. -/
inductive Chosen [Agent α] [Evaluator ε α] (s : Setting ε) (p : ExpandParams) (a : α)
    (turn : Nat) : List String → Prop
  | ranked {ranked : List RankedAction} : p.ranking →
      Evaluator.rank s.evaluator turn a p.mode = .ok ranked →
      Chosen s p a turn ((ranked.map (·.action)).take p.width)
  | drawn {actions : List String} : ¬ p.ranking → actions.Perm (Agent.available a) →
      Chosen s p a turn (actions.take p.width)

theorem choose_ends [Agent α] [Evaluator ε α] (s : Setting ε) (p : ExpandParams) (a : α) :
    Ends (choose s p a) r
      (fun xs r' => Quiet r r' ∧ Chosen s p a r.trace.scored.size xs)
      (fun e r' => Quiet r r' ∧ Blames s.evaluator (· = a) r'.trace e) := by
  unfold choose
  split
  · next hp =>
    refine Ends.bind (rank_ends s a p.mode) ?_
    rintro _ r' ⟨hq, ranked, ha, rfl⟩
    exact ends_pure.2 ⟨hq, .ranked hp ha⟩
  · next hp =>
    exact ⟨⟨⟨(r.graph.sampler.shuffle (Agent.available a)).2, rfl⟩, rfl⟩,
      .drawn hp (Sampler.shuffle_perm _ _)⟩

/-! ## Changing the agent -/

variable [Agent α] {a b : α} {x : String} {xs : List String}

theorem stepped_ends (a : α) (x : String) :
    Ends (stepped a x) r (fun b r' => r' = r ∧ Agent.Moves a x b)
      (fun _ r' => r' = r ∧ ¬ ∃ b, Agent.Moves a x b) := by
  unfold stepped Agent.Moves
  cases Agent.changed a (Agent.apply x) with
  | error err => exact ⟨rfl, fun ⟨b, hb⟩ => by cases hb⟩
  | ok b => exact ⟨rfl, rfl⟩

theorem replayed_ends (a : α) (xs : List String) :
    Ends (replayed a xs) r (fun b r' => r' = r ∧ Agent.Replays a xs b)
      (fun _ r' => r' = r ∧ ¬ ∃ b, Agent.Replays a xs b) := by
  unfold replayed Agent.Replays
  cases Agent.changed a (Agent.replay xs) with
  | error err => exact ⟨rfl, fun ⟨b, hb⟩ => by cases hb⟩
  | ok b => exact ⟨rfl, rfl⟩

theorem stepped_ok (h : Agent.Moves a x b) :
    Ends (stepped a x) r (fun c r' => r' = r ∧ c = b) E :=
  (stepped_ends a x).imp (fun _ _ ⟨hr, hc⟩ => ⟨hr, hc.unique h⟩)
    fun _ _ ⟨_, hno⟩ => absurd ⟨b, h⟩ hno

theorem replayed_ok (h : Agent.Replays a xs b) :
    Ends (replayed a xs) r (fun c r' => r' = r ∧ c = b) E :=
  (replayed_ends a xs).imp (fun _ _ ⟨hr, hc⟩ => ⟨hr, hc.unique h⟩)
    fun _ _ ⟨_, hno⟩ => absurd ⟨b, h⟩ hno

/-! ## Exploring -/

variable [Evaluator ε α] {p : ExpandParams}

/-- **What the first visit brings about**, and every visit and every transition that is stored
    keep, holds after exploration: `I` is kept and `P` is had by the states that are explored
    so deep. -/
theorem explore_rule {P : Nat → α → Prop} {I : Run α → Prop}
    (hquiet : ∀ {r r'}, I r → Quiet r r' → I r') (hfail : ∀ {e r}, I r → E e r)
    (hvisit : ∀ {k b r}, P k b → I r → Ends (visit s p b) r (fun _ r' => I r') E)
    (hmove : ∀ {k b x c r}, P (k + 1) b → Agent.Moves b x c → I r →
      P k c ∧ I { r with graph := (r.graph.recordEdge ⟨fingerprint b, fingerprint c, x⟩).2 }) :
    ∀ (k : Nat) {b : α} {r : Run α}, P k b → Ends (visit s p b) r (fun _ r' => I r') E →
      Ends (explore s p k b) r (fun _ r' => I r') E
  | 0, _, _, _, h => h
  | k + 1, b, r, hb, h => by
    refine Ends.bind h fun _ r₁ h₁ => ?_
    refine Ends.bind (expired_ends p) fun late r₂ ⟨hq₂, _⟩ => ?_
    have h₂ := hquiet h₁ hq₂
    split
    · exact h₂
    refine Ends.bind ((choose_ends s p b).imp_error fun e r₃ ⟨hq₃, _⟩ =>
      hfail (hquiet h₂ hq₃)) fun xs r₃ ⟨hq₃, _⟩ => ?_
    refine ends_forM (fun _ r' => I r') xs [] (hquiet h₂ hq₃) fun x _ _ r₄ h₄ => ?_
    refine Ends.bind ((stepped_ends b x).imp_error ?_) ?_
    · rintro e _ ⟨rfl, -⟩
      exact hfail h₄
    · rintro c r₄ ⟨rfl, hm⟩
      obtain ⟨hc, h₅⟩ := hmove hb hm h₄
      exact ends_bind.2 (ends_changeGraph.2
        (explore_rule (P := P) hquiet hfail hvisit hmove k hc (hvisit hc h₅)))

/-- **What every visit keeps**, and every transition that is stored, exploration keeps. -/
theorem explore_keeps {P : Nat → α → Prop} {I : Run α → Prop}
    (hquiet : ∀ {r r'}, I r → Quiet r r' → I r') (hfail : ∀ {e r}, I r → E e r)
    (hvisit : ∀ {k b r}, P k b → I r → Ends (visit s p b) r (fun _ r' => I r') E)
    (hmove : ∀ {k b x c r}, P (k + 1) b → Agent.Moves b x c → I r →
      P k c ∧ I { r with graph := (r.graph.recordEdge ⟨fingerprint b, fingerprint c, x⟩).2 })
    (k : Nat) {b : α} (hb : P k b) (h : I r) : Ends (explore s p k b) r (fun _ r' => I r') E :=
  explore_rule (P := P) hquiet hfail hvisit hmove k hb (hvisit hb h)

/-- An expansion within the ceiling explores, and looks for the best state. -/
theorem expand_ends {depth : Nat} (hd : depth ≤ depthCeiling) {Q : PUnit → Run α → Prop}
    (h : Ends (explore s p depth a) r Q E) :
    Ends (expand s p a depth) r
      (fun suffix r' => Q ⟨⟩ r' ∧ suffix = r'.graph.remaining (fingerprint a)) E := by
  unfold expand
  rw [if_neg (by omega), Int.toNat_natCast, if_neg (by omega)]
  exact Ends.bind h fun _ r' hr' => ends_bind.2 (ends_graph.2 ⟨hr', rfl⟩)

/-- How deep an expansion goes.  One beyond the ceiling is refused. -/
def reach (steps : Int) : Nat :=
  if depthCeiling < steps.toNat then 0 else steps.toNat

/-- Whatever is asked for, an expansion is refused at once, or it explores. -/
theorem expand_rule {steps : Int} (hrefused : ∀ e, E e r) {Q : Run α → Prop}
    (h : Ends (explore s p (reach steps) a) r (fun _ r' => Q r') E) :
    Ends (expand s p a steps) r (fun _ r' => Q r') E := by
  by_cases hneg : steps < 0
  · unfold expand
    rw [if_pos hneg]
    exact hrefused _
  by_cases hd : depthCeiling < steps.toNat
  · unfold expand
    rw [if_neg hneg, if_pos hd]
    exact hrefused _
  · rw [reach, if_neg hd] at h
    rw [← Int.toNat_of_nonneg (Int.not_lt.1 hneg)]
    exact (expand_ends (Nat.not_lt.1 hd) h).imp_ok fun _ _ h => h.1

/-- **What every visit keeps**, and every transition that is stored, an expansion keeps,
    whether or not it succeeds. -/
theorem expand_keeps {P : Nat → α → Prop} {I : Run α → Prop} {steps : Int}
    (hquiet : ∀ {r r'}, I r → Quiet r r' → I r')
    (hvisit : ∀ {k b r}, P k b → I r →
      Ends (visit s p b) r (fun _ r' => I r') fun _ r' => I r')
    (hmove : ∀ {k b x c r}, P (k + 1) b → Agent.Moves b x c → I r →
      P k c ∧ I { r with graph := (r.graph.recordEdge ⟨fingerprint b, fingerprint c, x⟩).2 })
    (ha : P (reach steps) a) (h : I r) :
    Ends (expand s p a steps) r (fun _ r' => I r') fun _ r' => I r' :=
  expand_rule (fun _ => h)
    (explore_keeps (P := P) hquiet (fun h => h) hvisit hmove (reach steps) ha h)

theorem reach_le (steps : Int) : reach steps ≤ steps.toNat := by
  unfold reach
  split
  exacts [Nat.zero_le _, Nat.le_refl _]

end SearchM

end ScheduleSearch

/-
  What expansion keeps true of a graph.

  A search grows its graph from a root without a history.  Exploring a state again
  may replace recorded actions by fewer, also those of states whose successors
  stay as they are; what carries over is that every state on a recorded way is
  known along no more actions than the way has there (`Trail`).

  * `Grown` is the invariant of the graph: recorded actions replay to their state,
    stored transitions are real, and the best score is the highest;
  * `Ready` says that a state may be explored: the states before it are known, and
    it is known, too, or entered from the last of them;
  * `Growing` adds that the graph knows what was scored, and no more;
  * `explore_covers`: exploring such a state keeps the invariant of the graph, also when
    it fails, and fails only by a fault of the evaluator (`Fails`); `explore_logs`: it
    logs what it comes to know;
  * **`expand_grows`**: so does expansion.
-/
import ScheduleSearch.Proofs.Outcome

namespace ScheduleSearch

open Agent SearchM

variable {α ε : Type} [Agent α] [Evaluator ε α]

section
variable {ev : ε} {root b c : α} {n : Nat} {g g' : Graph} {x : String} {actions : List String}

/-! ## The invariant -/

/-- Every state on the way is known along as few actions. -/
def Trail (root : α) (g : Graph) (actions : List String) : Prop :=
  ∀ q c, q <+: actions → Replays root q c → g.Knows (fingerprint c) q.length

theorem Trail.grow (h : Trail root g actions) (hg : g.Grows g') : Trail root g' actions :=
  fun q c hq hc => hg.knows (h q c hq hc)

/-- A node as a graph should have it under a state. -/
structure Recorded (ev : ε) (root : α) (n : Nat) (g : Graph) (fp : Fingerprint) (m : Node) :
    Prop where
  state : ∃ b, Replays root m.actions b ∧ fingerprint b = fp ∧ Scores ev b m.score
  length : m.actions.length ≤ n
  finite : m.score.isFinite
  trail : Trail root g m.actions
  entered : g.Entered fp m.actions
  timed : m.actions.length ∈ g.depthTimes

theorem Recorded.grow {fp : Fingerprint} {m : Node} (h : Recorded ev root n g fp m)
    (hg : g.Grows g') (hd : ∀ d ∈ g.depthTimes, d ∈ g'.depthTimes) :
    Recorded ev root n g' fp m :=
  ⟨h.state, h.length, h.finite, h.trail.grow hg, h.entered.grow hg, hd _ h.timed⟩

/-- A graph that was grown from `root` to a depth of `n`. -/
structure Grown (ev : ε) (root : α) (n : Nat) (g : Graph) : Prop where
  wired : g.Wired
  node {fp : Fingerprint} {m : Node} : g.node? fp = some m → Recorded ev root n g fp m
  edge {t : Transition} : t ∈ g.transitions →
    ∃ i b c, i < n ∧ Within root i b ∧ Moves b t.action c ∧ fingerprint b = t.source ∧
      fingerprint c = t.target
  peak : SteadyScores ev root n → g.Peaked

/-- A state that may be explored. -/
structure Ready (root : α) (g : Graph) (b : α) : Prop where
  replays : Replays root (history b) b
  trail (q : List String) (c : α) : q <+: history b → q.length < (history b).length →
    Replays root q c → g.Knows (fingerprint c) q.length
  entered : g.Knows (fingerprint b) (history b).length ∨ g.Entered (fingerprint b) (history b)

theorem Ready.grow (h : Ready root g b) (hg : g.Grows g') : Ready root g' b :=
  ⟨h.replays, fun q c hq hl hc => hg.knows (h.trail q c hq hl hc),
    h.entered.imp hg.knows (·.grow hg)⟩

theorem ready_root (hr : history root = []) : Ready root g root where
  replays := by rw [hr]; exact replays_nil.2 rfl
  trail q c _ hl := by rw [hr] at hl; cases hl
  entered := .inr fun before last h => by simp [hr] at h

theorem ready_of_trail (hb : Replays root (history b) b) (h : Trail root g (history b)) :
    Ready root g b where
  replays := hb
  trail q c hq _ hc := h q c hq hc
  entered := .inl (h _ b (List.prefix_rfl) hb)

/-- The states after an explored one may be explored when the transition is stored. -/
theorem Ready.move (hb : Ready root g b) (h : Trail root g (history b)) (hm : Moves b x c)
    (hh : history c = history b ++ [x]) (ht : ⟨fingerprint b, fingerprint c, x⟩ ∈ g.transitions) :
    Ready root g c where
  replays := by rw [hh]; exact replays_concat.2 ⟨b, hb.replays, hm⟩
  trail q d hq hl hd := by
    rw [hh] at hq hl
    rcases List.prefix_concat_iff.1 hq with rfl | hq
    · exact absurd hl (lt_irrefl _)
    · exact h q d hq hd
  entered := .inr fun before last he => by
    rw [hh] at he
    obtain ⟨rfl, rfl⟩ := List.append_singleton_inj.1 he
    exact ⟨fingerprint b, ht, h _ b List.prefix_rfl hb.replays⟩

/-- A graph that was grown to some depth was grown to any greater one. -/
theorem Grown.mono {k : Nat} (h : Grown ev root k g) (hk : k ≤ n) : Grown ev root n g where
  wired := h.wired
  node hm := { h.node hm with length := (h.node hm).length.trans hk }
  edge ht := by
    obtain ⟨i, b, c, hi, hrest⟩ := h.edge ht
    exact ⟨i, b, c, by omega, hrest⟩
  peak hst := h.peak (hst.sub .start (by omega : 0 + k ≤ n))

/-! ## Recording keeps the invariant -/

theorem grown_empty (seed : UInt64) : Grown ev root n (.empty seed) where
  wired := Graph.wired_empty seed
  node h := by cases h
  edge {t} h := by simp [Graph.empty] at h
  peak _ _ h := by cases h

theorem Grown.like (h : Grown ev root n g) {depthTimes : Std.TreeMap Nat Float}
    (hd : ∀ d ∈ g.depthTimes, d ∈ depthTimes) (sampler : Sampler) :
    Grown ev root n { g with depthTimes, sampler } where
  wired := h.wired.like depthTimes sampler
  node hm := (h.node hm).grow ⟨id, id⟩ hd
  edge := h.edge
  peak := h.peak

/-- A real transition may be stored. -/
theorem Grown.recordEdge (h : Grown ev root n g) {i : Nat} (hi : i < n) (hb : Within root i b)
    (hm : Moves b x c) :
    Grown ev root n (g.recordEdge ⟨fingerprint b, fingerprint c, x⟩).2 := by
  have hgrows := g.grows_recordEdge ⟨fingerprint b, fingerprint c, x⟩
  have hwired := Graph.wired_recordEdge h.wired ⟨fingerprint b, fingerprint c, x⟩
  have hedge : ∀ t ∈ (g.recordEdge ⟨fingerprint b, fingerprint c, x⟩).2.transitions,
      ∃ i b c, i < n ∧ Within root i b ∧ Moves b t.action c ∧ fingerprint b = t.source ∧
        fingerprint c = t.target := fun t ht => by
    rcases Graph.mem_recordEdge.1 ht with rfl | ht
    · exact ⟨i, b, c, hi, hb, hm, rfl, rfl⟩
    · exact h.edge ht
  obtain ⟨_, _, _, _, heq⟩ := g.recordEdge_nodes ⟨fingerprint b, fingerprint c, x⟩
  rw [heq] at hgrows hwired hedge ⊢
  exact {
    wired := hwired
    node := fun hm => (h.node hm).grow hgrows fun _ hd => hd
    edge := hedge _
    peak := h.peak }

/-- A ready state may be recorded with its score. -/
theorem Grown.record (h : Grown ev root n g) (hw : World root n) (hb : Ready root g b)
    (hn : (history b).length ≤ n) {score : Float} (hs : Scores ev b score) (hf : score.isFinite)
    (ht : (history b).length ∈ g.depthTimes) (time : Float) :
    Grown ev root n (g.record (fingerprint b) (history b) score time).2 := by
  have hgrows := g.grows_record (fingerprint b) (history b) score time
  have hwired := Graph.wired_record h.wired (fingerprint b) (history b) score time
  rcases g.record_cases (fingerprint b) (history b) score time with ⟨hk, hg⟩ | ⟨-, hg⟩
  swap
  · rwa [hg]
  have hbn : Within root n b := hb.replays.within hn
  have htrail : Trail root (g.record (fingerprint b) (history b) score time).2 (history b) := by
    intro q c hq hc
    rcases Nat.lt_or_ge q.length (history b).length with hl | hl
    · exact hgrows.knows (hb.trail q c hq hl hc)
    · obtain rfl := hq.eq_of_length_le hl
      obtain rfl := hc.unique hb.replays
      exact Graph.knows_record.2 (.inr ⟨rfl, le_rfl⟩)
  have hent : g.Entered (fingerprint b) (history b) := hb.entered.resolve_left hk
  -- a state that is stored again has the same score, if scores do not vary
  have hsame : SteadyScores ev root n → ∀ m, g.node? (fingerprint b) = some m →
      m.score = score := fun hst m hm => by
    obtain ⟨b', hb', hfp, hs'⟩ := (h.node hm).state
    have hbn' : Within root n b' := hb'.within (h.node hm).length
    exact hst.unique hbn (hst.same hbn' hbn (hw.distinct hbn' hbn hfp) hs') hs
  rw [hg] at hgrows hwired htrail ⊢
  exact {
    wired := hwired
    node := fun hm => by
      rw [← hg] at hm
      rcases Graph.node?_record hm with ⟨rfl, rfl⟩ | hm
      · exact ⟨⟨b, hb.replays, rfl, hs⟩, hn, hf, htrail, hent.grow hgrows, ht⟩
      · exact (h.node hm).grow hgrows fun _ hd => hd
    edge := h.edge
    peak := fun hst =>
      Graph.peaked_store h.wired (h.peak hst) (fun _ _ hm => (h.node hm).finite) hf
        fun best hbest hfp => by
          obtain ⟨-, hnode⟩ := h.wired.node?_best hbest
          have hnode : g.node? (fingerprint b) = some best := (congrArg g.node? hfp).symm.trans hnode
          have hle := FloatOrder.refl (FloatOrder.not_isNaN hf)
          rwa [← hsame hst best hnode] at hle ⊢ }

end

/-! ## Runs -/

section
variable {s : Setting ε} {p : ExpandParams} {root b : α} {n : Nat} {before : List (Scored α)}
  {r r' : Run α}

/-- An entry of the log that asked for a measured score, and got a finite one. -/
structure Answered (ev : ε) (e : Scored α) (x : Float) : Prop where
  mode_eq : e.mode = .loopNest
  answer_eq : e.answer = .ok x
  scores : Scores ev e.state x
  finite : x.isFinite

/-- The scores of the nodes were asked for. -/
def Credits (ev : ε) (new : List (Scored α)) (g : Graph) : Prop :=
  ∀ ⦃fp : Fingerprint⦄ ⦃m : Node⦄, g.node? fp = some m →
    ∃ e ∈ new, fingerprint e.state = fp ∧ Answered ev e m.score

/-- What was scored is known, and the scores of the nodes were asked for. -/
structure Logs (ev : ε) (root : α) (n : Nat) (new : List (Scored α)) (g : Graph) : Prop where
  known (e : Scored α) : e ∈ new → Within root n e.state ∧ (∃ x, Answered ev e x) ∧
    ∃ k, g.Knows (fingerprint e.state) k
  scored : Credits ev new g

/-- A run that grows a graph, and logged `before` earlier. -/
structure Growing (ev : ε) (root : α) (n : Nat) (before : List (Scored α)) (r : Run α) :
    Prop where
  grown : Grown ev root n r.graph
  logs : ∃ new, r.trace.scored.toList = before ++ new ∧ Logs ev root n new r.graph

/-- A search that fails leaves a graph as it should be, and where candidates are
    accepted the evaluator is to blame. -/
def Fails (ev : ε) (root : α) (n : Nat) (e : SearchError) (r : Run α) : Prop :=
  Grown ev root n r.graph ∧ (Accepting ev root n → Blames ev (Within root n) r.trace e)

theorem Growing.mono {ev : ε} {k : Nat} (h : Growing ev root k before r) (hk : k ≤ n) :
    Growing ev root n before r where
  grown := h.grown.mono hk
  logs := by
    obtain ⟨new, hnew, hlogs⟩ := h.logs
    refine ⟨new, hnew, fun e he => ?_, hlogs.scored⟩
    obtain ⟨he, hx⟩ := hlogs.known e he
    exact ⟨he.mono hk, hx⟩

theorem Fails.mono {ev : ε} {k : Nat} {e : SearchError} (h : Fails ev root k e r) (hk : k ≤ n) :
    Fails ev root n e r :=
  ⟨h.1.mono hk, fun hA => (h.2 (hA.sub .start (by omega : 0 + k ≤ n))).imp fun _ hb => hb.mono hk⟩

theorem Grown.quiet {ev : ε} (h : Grown ev root n r.graph) (hq : Quiet r r') :
    Grown ev root n r'.graph := by
  obtain ⟨σ, hg⟩ := hq.graph
  rw [hg]
  exact h.like (fun _ hd => hd) σ

/-- A fresh graph is a start. -/
theorem growing_fresh {ev : ε} {seed : UInt64} (h : Fresh seed r r') :
    Growing ev root n r.trace.scored.toList r' := by
  obtain ⟨σ, hσ⟩ := h.graph
  refine ⟨?_, [], by rw [List.append_nil, h.scored], fun e he => absurd he List.not_mem_nil,
    fun _ _ hm => ?_⟩
  · rw [hσ]
    exact (grown_empty seed).like (fun _ hd => hd) σ
  · rw [hσ] at hm
    cases hm

/-! ### The graph -/

/-- The graph after a state was explored: nothing was forgotten, and every state on
    the way to the explored one is known. -/
structure Covered (ev : ε) (root : α) (n : Nat) (b : α) (g g' : Graph) : Prop where
  grown : Grown ev root n g'
  grows : g.Grows g'
  trail : Trail root g' (history b)

theorem Covered.quiet {ev : ε} {g : Graph} (h : Covered ev root n b g r.graph) (hq : Quiet r r') :
    Covered ev root n b g r'.graph :=
  ⟨h.grown.quiet hq, h.grows.trans hq.grows, h.trail.grow hq.grows⟩

/-- A ready state is recorded with what the evaluator answers, or the evaluator is
    to blame. -/
theorem visit_covers (hw : World root n) (h : Grown s.evaluator root n r.graph)
    (hb : Ready root r.graph b) (hn : (history b).length ≤ n) :
    Ends (visit s p b) r (fun _ r' => Covered s.evaluator root n b r.graph r'.graph)
      (Fails s.evaluator root n) := by
  have hbn : Within root n b := hb.replays.within hn
  refine (visit_ends s p b).imp ?_ ?_
  · intro _ r' hv
    have hgrows := hv.grows
    have hknown := hv.knows_iff.2 (.inr ⟨rfl, le_rfl⟩)
    obtain ⟨x, time, times, σ, hx, hfin, -, hg, htimes⟩ := hv
    have hready : Ready root { r.graph with depthTimes := times, sampler := σ } b :=
      hb.grow ⟨id, id⟩
    have hgrown := (h.like (fun d hd => (htimes d).2 (.inr hd)) σ).record hw hready hn ⟨_, hx⟩
      hfin ((htimes _).2 (.inl rfl)) time
    rw [← hg] at hgrown
    refine ⟨hgrown, hgrows, fun q c hq hc => ?_⟩
    rcases Nat.lt_or_ge q.length (history b).length with hl | hl
    · exact hgrows.knows (hb.trail q c hq hl hc)
    · obtain rfl := hq.eq_of_length_le hl
      obtain rfl := hc.unique hb.replays
      exact hknown
  · rintro e r' ⟨⟨σ, hg⟩, -, he⟩
    refine ⟨?_, fun _ => he.imp fun c hc => hc ▸ hbn⟩
    rw [hg]
    exact h.like (fun _ hd => hd) σ

/-- Where candidates are accepted, so is what is followed from a state. -/
theorem Accepting.chosen (h : Accepting s.evaluator root n) (hb : Within root n b) {turn : Nat}
    {xs : List String} (hc : Chosen s p b turn xs) : ∀ x ∈ xs, ∃ c, Moves b x c := by
  intro x hx
  cases hc with
  | ranked _ hr => exact h.ranked hb hr (List.mem_of_mem_take hx)
  | drawn _ hd => exact h.available hb (hd.mem_iff.1 (List.mem_of_mem_take hx))

/-- **Exploring** a ready state keeps the invariant of the graph. -/
theorem explore_covers (hw : World root n) : ∀ (depth : Nat) {b : α} {r : Run α},
    Grown s.evaluator root n r.graph → Ready root r.graph b → (history b).length + depth ≤ n →
    Ends (explore s p depth b) r
      (fun _ r' => Covered s.evaluator root n b r.graph r'.graph) (Fails s.evaluator root n)
  | 0, b, r, h, hb, hn => visit_covers hw h hb hn
  | depth + 1, b, r, h, hb, hn => by
    have hbn : Within root (history b).length b := hb.replays.within le_rfl
    refine Ends.bind (visit_covers hw h hb (by omega)) fun _ r₁ h₁ => ?_
    refine Ends.bind (expired_ends p) fun late r₂ ⟨hq₂, _⟩ => ?_
    have h₂ := h₁.quiet hq₂
    split
    · exact h₂
    refine Ends.bind ((choose_ends s p b).imp_error fun e r₃ ⟨hq₃, he⟩ => ?_)
      fun xs r₃ ⟨hq₃, hxs⟩ => ?_
    · exact ⟨h₂.grown.quiet hq₃, fun _ => he.imp fun c hc => hc ▸ hbn.mono (by omega)⟩
    -- what was explored stays so while the children are explored
    refine ends_forM (fun _ r' => Covered s.evaluator root n b r.graph r'.graph) xs []
      (h₂.quiet hq₃) fun x hx _ r₄ h₄ => ?_
    refine Ends.bind ((stepped_ends b x).imp_error ?_) ?_
    · rintro e _ ⟨rfl, hrej⟩
      exact ⟨h₄.grown, fun hA => absurd (hA.chosen (hbn.mono (by omega)) hxs x hx) hrej⟩
    · rintro c r₄ ⟨rfl, hm⟩
      refine ends_bind.2 (ends_changeGraph.2 ?_)
      have hgrows := r₄.graph.grows_recordEdge ⟨fingerprint b, fingerprint c, x⟩
      have hh : history c = history b ++ [x] := hw.appends (hbn.mono (by omega)) hm
      have h₅ := h₄.grown.recordEdge (by omega) hbn hm
      have hc : Ready root _ c := ((hb.grow h₄.grows).grow hgrows).move (h₄.trail.grow hgrows) hm hh
        (Graph.mem_recordEdge.2 (.inl rfl))
      have hd : (history c).length + depth ≤ n := by
        rw [hh, List.length_append, List.length_singleton]
        omega
      refine (explore_covers hw depth h₅ hc hd).imp_ok fun _ r₆ h₆ => ?_
      exact ⟨h₆.grown, (h₄.grows.trans hgrows).trans h₆.grows,
        (h₄.trail.grow hgrows).grow h₆.grows⟩

/-! ### The log -/

/-- A state that is visited is credited with the entry that the visit logs. -/
theorem Credits.visited {ev : ε} {new : List (Scored α)} (h : Credits ev new r.graph)
    (hv : Visited ev b r r') :
    ∃ x, Answered ev ⟨b, .loopNest, .ok x⟩ x ∧
      r'.trace.scored = r.trace.scored.push ⟨b, .loopNest, .ok x⟩ ∧
      Credits ev (new ++ [⟨b, .loopNest, .ok x⟩]) r'.graph := by
  obtain ⟨x, time, times, σ, hx, hfin, hpush, hg, -⟩ := hv
  have hans : Answered ev ⟨b, .loopNest, .ok x⟩ x := ⟨rfl, rfl, ⟨_, hx⟩, hfin⟩
  refine ⟨x, hans, hpush, fun fp m hm => ?_⟩
  rw [hg] at hm
  rcases Graph.node?_record hm with ⟨rfl, rfl⟩ | hm
  · exact ⟨_, List.mem_append_right _ (List.mem_singleton_self _), rfl, hans⟩
  · obtain ⟨e, he, hfp, hx⟩ := h hm
    exact ⟨e, List.mem_append_left _ he, hfp, hx⟩

theorem Logs.visited {ev : ε} {new : List (Scored α)} (h : Logs ev root n new r.graph)
    (hb : Within root n b) (hv : Visited ev b r r') :
    ∃ x, Answered ev ⟨b, .loopNest, .ok x⟩ x ∧
      r'.trace.scored = r.trace.scored.push ⟨b, .loopNest, .ok x⟩ ∧
      Logs ev root n (new ++ [⟨b, .loopNest, .ok x⟩]) r'.graph := by
  obtain ⟨x, hans, hpush, hscored⟩ := h.scored.visited hv
  refine ⟨x, hans, hpush, fun e he => ?_, hscored⟩
  rcases List.mem_append.1 he with he | he
  · obtain ⟨he, hx, k, hk⟩ := h.known e he
    exact ⟨he, hx, k, hv.grows.knows hk⟩
  · obtain rfl := List.mem_singleton.1 he
    exact ⟨hb, ⟨x, hans⟩, _, hv.knows_iff.2 (.inr ⟨rfl, le_rfl⟩)⟩

/-- A log follows the nodes of a graph. -/
theorem Logs.congr {ev : ε} {new : List (Scored α)} {g g' : Graph} (h : Logs ev root n new g)
    (hg : g'.nodes = g.nodes) : Logs ev root n new g' := by
  have hnode : g'.node? = g.node? := by
    funext fp
    unfold Graph.node?
    rw [hg]
  have hknows : g'.Knows = g.Knows := by
    funext fp k
    unfold Graph.Knows
    rw [hnode]
  refine ⟨fun e he => ?_, fun fp m hm => h.scored (hnode ▸ hm)⟩
  rw [hknows]
  exact h.known e he

theorem Growing.quiet (h : Growing s.evaluator root n before r) (hq : Quiet r r') :
    Growing s.evaluator root n before r' where
  grown := h.grown.quiet hq
  logs := by
    obtain ⟨σ, hg⟩ := hq.graph
    obtain ⟨new, hlog, hlogs⟩ := h.logs
    exact ⟨new, by rw [hq.scored, hlog], hlogs.congr (by rw [hg])⟩

/-- Exploring logs what it comes to know. -/
theorem explore_logs {depth i : Nat} (hb : Within root i b) (hi : i + depth ≤ n)
    (h : ∃ new, r.trace.scored.toList = before ++ new ∧ Logs s.evaluator root n new r.graph) :
    Ends (explore s p depth b) r
      (fun _ r' => ∃ new, r'.trace.scored.toList = before ++ new ∧
        Logs s.evaluator root n new r'.graph)
      (fun _ _ => True) := by
  refine explore_keeps (P := fun k c => ∃ i, Within root i c ∧ i + k ≤ n) ?_ (fun _ => trivial) ?_
    ?_ depth ⟨i, hb, hi⟩ h
  · rintro r r' ⟨new, hnew, hlogs⟩ hq
    obtain ⟨σ, hg⟩ := hq.graph
    exact ⟨new, by rw [hq.scored, hnew], hlogs.congr (by rw [hg])⟩
  · rintro k c r ⟨i, hc, hi⟩ ⟨new, hnew, hlogs⟩
    refine (visit_ends s p c).imp (fun _ r' hv => ?_) fun _ _ _ => trivial
    obtain ⟨x, -, hpush, hlogs⟩ := hlogs.visited (hc.mono (by omega)) hv
    exact ⟨_, by rw [hpush, Array.toList_push, hnew, List.append_assoc], hlogs⟩
  · rintro k c x d r ⟨i, hc, hi⟩ hm ⟨new, hnew, hlogs⟩
    obtain ⟨_, _, _, _, hg⟩ := r.graph.recordEdge_nodes ⟨fingerprint c, fingerprint d, x⟩
    exact ⟨⟨i + 1, hc.move hm, by omega⟩, new, hnew, hlogs.congr (by rw [hg])⟩

/-! ### Both -/

/-- A run on which a state was explored, after the run `r`. -/
structure Explored (ev : ε) (root : α) (n : Nat) (before : List (Scored α)) (b : α)
    (r r' : Run α) : Prop where
  growing : Growing ev root n before r'
  grows : r.graph.Grows r'.graph
  trail : Trail root r'.graph (history b)

theorem Explored.quiet (h : Explored s.evaluator root n before b r r') {r'' : Run α}
    (hq : Quiet r' r'') : Explored s.evaluator root n before b r r'' :=
  ⟨h.growing.quiet hq, h.grows.trans hq.grows, h.trail.grow hq.grows⟩

/-- **Expansion** of a ready state keeps the invariant of the graph, and returns the
    actions from the state to the best one. -/
theorem expand_grows (hw : World root n) (h : Growing s.evaluator root n before r)
    (hb : Ready root r.graph b) {depth : Nat} (hd : depth ≤ depthCeiling)
    (hn : (history b).length + depth ≤ n) :
    Ends (expand s p b depth) r
      (fun suffix r' => Explored s.evaluator root n before b r r' ∧
        suffix = r'.graph.remaining (fingerprint b))
      (Fails s.evaluator root n) := by
  have hcovers := explore_covers (s := s) (p := p) hw depth h.grown hb hn
  have hlogs := explore_logs (s := s) (p := p) (hb.replays.within le_rfl) hn h.logs
  have hboth : Ends (explore s p depth b) r
      (fun _ r' => Explored s.evaluator root n before b r r') (Fails s.evaluator root n) :=
    (hcovers.and hlogs).imp (fun _ r' ⟨hc, hl⟩ => ⟨⟨hc.grown, hl⟩, hc.grows, hc.trail⟩)
      fun _ _ h => h.1
  exact expand_ends hd hboth

end

end ScheduleSearch

/-
  The ends of transitions.

  A transition is stored when its action is taken, and its target is recorded once it is
  scored.  If the evaluator gives no finite score in between, the call fails and leaves a
  transition into a state that the graph does not hold, unless it was recorded before.

  * `Graph.Joined`: the graph holds the source of every stored transition, and the target
    but for some states;
  * `explore_joins`: exploring a state joins the transitions into it, or fails (`Breaks`) and
    leaves at most those into the state that was asked for last;
  * `expand_closed_iff`: so a call keeps a graph closed exactly if it does not abandon a
    state that it stepped to (`Abandons`);
  * **`expandAll_closed_iff`**: every edge has both ends after every call of a series exactly
    if no call abandons a state; and it always has its source, and its target unless this
    was refused a score.
-/
import ScheduleSearch.Proofs.Series

namespace ScheduleSearch

open Agent SearchM

namespace Graph

variable {g g' : Graph} {fp : Fingerprint} {P Q : Fingerprint → Prop} {t : Transition}

/-- The state is recorded. -/
def Holds (g : Graph) (fp : Fingerprint) : Prop :=
  (g.node? fp).isSome

instance : Decidable (g.Holds fp) :=
  inferInstanceAs (Decidable (_ = true))

theorem holds_iff : g.Holds fp ↔ ∃ k, g.Knows fp k := by
  unfold Holds Knows
  rw [Option.isSome_iff_exists]
  exact ⟨fun ⟨n, hn⟩ => ⟨_, n, hn, le_rfl⟩, fun ⟨_, n, hn, _⟩ => ⟨n, hn⟩⟩

theorem Holds.grow (h : g.Holds fp) (hg : g.Grows g') : g'.Holds fp := by
  obtain ⟨k, hk⟩ := holds_iff.1 h
  exact holds_iff.2 ⟨k, hg.knows hk⟩

/-- Both ends of every edge are recorded. -/
def Closed (g : Graph) : Prop :=
  ∀ e ∈ g.edges, g.Holds e.source ∧ g.Holds e.target

/-- Both ends of every stored transition are recorded, but perhaps for targets with `P`. -/
def Joined (g : Graph) (P : Fingerprint → Prop) : Prop :=
  ∀ t ∈ g.transitions, g.Holds t.source ∧ (g.Holds t.target ∨ P t.target)

theorem joined_empty (seed : UInt64) : (empty seed).Joined P := by
  intro t ht
  simp [empty] at ht

theorem Joined.imp (h : g.Joined P) (hP : ∀ fp, P fp → Q fp) : g.Joined Q :=
  fun t ht => ⟨(h t ht).1, (h t ht).2.imp_right (hP _)⟩

/-- A recorded state needs no exception. -/
theorem Joined.settle (h : g.Joined fun fp' => fp' = fp ∨ P fp') (hfp : g.Holds fp) :
    g.Joined P := by
  intro t ht
  obtain ⟨hsource, htarget | rfl | htarget⟩ := h t ht
  exacts [⟨hsource, .inl htarget⟩, ⟨hsource, .inl hfp⟩, ⟨hsource, .inr htarget⟩]

/-- More states may be recorded when no transition is added. -/
theorem Joined.grow (h : g.Joined P) (hg : g.Grows g') (ht : g'.transitions = g.transitions) :
    g'.Joined P := by
  intro t hmem
  obtain ⟨hsource, htarget⟩ := h t (ht ▸ hmem)
  exact ⟨hsource.grow hg, htarget.imp_left (·.grow hg)⟩

/-- A transition from a recorded state is joined but for its target. -/
theorem Joined.recordEdge (h : g.Joined P) (hsource : g.Holds t.source) :
    (g.recordEdge t).2.Joined fun fp => fp = t.target ∨ P fp := by
  have hgrows := g.grows_recordEdge t
  intro t' ht'
  rcases mem_recordEdge.1 ht' with rfl | ht'
  · exact ⟨hsource.grow hgrows, .inr (.inl rfl)⟩
  · obtain ⟨hs, ht⟩ := h t' ht'
    exact ⟨hs.grow hgrows, ht.imp (·.grow hgrows) .inr⟩

/-- The edges are the stored transitions. -/
theorem Wired.joined_iff (h : g.Wired) : g.Joined P ↔
    ∀ e ∈ g.edges, g.Holds e.source ∧ (g.Holds e.target ∨ P e.target) := by
  unfold Joined
  simp only [h.transitions, List.forall_mem_map, Array.mem_toList_iff]

theorem Wired.closed_iff (h : g.Wired) : g.Closed ↔ g.Joined fun _ => False := by
  rw [h.joined_iff]
  simp only [Closed, or_false]

end Graph

variable {α ε : Type} [Agent α] [Evaluator ε α] {s : Setting ε} {p : ExpandParams} {b c : α}
  {r r' r'' : Run α} {P : Fingerprint → Prop} {steps : Int}

/-- The answer is a finite score. -/
def Scored.Finite (e : Scored α) : Prop :=
  ∃ x, e.answer = .ok x ∧ x.isFinite

/-- The states that were refused a finite score. -/
def Refused (t : Trace α) (fp : Fingerprint) : Prop :=
  ∃ e ∈ t.scored, fingerprint e.state = fp ∧ ¬ e.Finite

/-- A call on the run `r` asked last for the score of a state that it had stepped to, got no
    finite score, and the graph does not hold the state. -/
def Abandons (r r' : Run α) : Prop :=
  r.trace.scored.size + 1 < r'.trace.scored.size ∧
    ∃ e, r'.trace.scored.back? = some e ∧ ¬ e.Finite ∧ ¬ r'.graph.Holds (fingerprint e.state)

/-! ## One call -/

/-- A run that went on from `r`: it asked for scores, the last of which is finite, and its
    transitions are joined but for `P`. -/
structure Joins (P : Fingerprint → Prop) (r r' : Run α) : Prop where
  grows : r.graph.Grows r'.graph
  joined : r'.graph.Joined P
  asked : r.trace.scored.size < r'.trace.scored.size
  finite : ∃ e, r'.trace.scored.back? = some e ∧ e.Finite

/-- Where a run fails that went on from `r` with the state `b`. -/
inductive Breaks (P : Fingerprint → Prop) (b : α) (r r' : Run α) : Prop
  /-- after a score -/
  | after : Joins P r r' → Breaks P b r r'
  /-- at the score of `b` -/
  | first {e : Scored α} : e.state = b → r.graph.Like r'.graph →
      r'.trace.scored = r.trace.scored.push e → ¬ e.Finite → Breaks P b r r'
  /-- at the score of a state that it stepped to -/
  | stepped {e : Scored α} : r'.graph.Joined (fun fp => fp = fingerprint e.state ∨ P fp) →
      (∃ t ∈ r'.graph.transitions, t.target = fingerprint e.state) →
      r.trace.scored.size + 1 < r'.trace.scored.size → r'.trace.scored.back? = some e →
      ¬ e.Finite → Breaks P b r r'

section
omit [Agent α]

theorem Joins.trans (h : Joins P r r') (h' : Joins P r' r'') : Joins P r r'' :=
  ⟨h.grows.trans h'.grows, h'.joined, h.asked.trans h'.asked, h'.finite⟩

theorem Joins.quiet (h : Joins P r r') (hq : Quiet r' r'') : Joins P r r'' := by
  obtain ⟨σ, hσ⟩ := hq.graph
  refine ⟨h.grows.trans hq.grows, ?_, by rw [hq.scored]; exact h.asked,
    by rw [hq.scored]; exact h.finite⟩
  exact h.joined.grow hq.grows (by rw [hσ])

end

/-- A visit that fails was refused a finite score. -/
theorem visit_refused (s : Setting ε) (p : ExpandParams) (b : α) :
    Ends (visit s p b) r (fun _ _ => True) (fun _ r' =>
      ∃ e : Scored α, e.state = b ∧ r'.trace.scored = r.trace.scored.push e ∧ ¬ e.Finite) := by
  unfold visit
  refine Ends.bind (elapsed_ends p.start) fun time r₁ ⟨hq₁, _⟩ => ?_
  rw [← hq₁.scored]
  refine Ends.bind (P := fun _ _ => True) ?_ fun _ _ _ => trivial
  unfold SearchM.measure
  refine ends_bind.2 (ends_modifyGet.2 ?_)
  dsimp only [Trace.score]
  cases ha : Evaluator.score s.evaluator r₁.trace.scored.size b .loopNest with
  | error err =>
    refine ends_throw.2 ⟨_, rfl, rfl, ?_⟩
    rintro ⟨x, hx, -⟩
    cases hx
  | ok x =>
    dsimp only
    split
    · trivial
    · next hx =>
      refine ends_throw.2 ⟨_, rfl, rfl, ?_⟩
      rintro ⟨y, hy, hfin⟩
      cases hy
      exact hx hfin

/-- A visit records the state, or is refused its score. -/
theorem visit_joins (h : r.graph.Joined fun fp => fp = fingerprint b ∨ P fp) :
    Ends (visit s p b) r (fun _ r' => Joins P r r' ∧ r'.graph.Holds (fingerprint b))
      (fun _ r' => Breaks P b r r') := by
  refine ((visit_ends s p b).and (visit_refused s p b)).imp ?_ ?_
  · rintro _ r' ⟨hv, -⟩
    have hholds := Graph.holds_iff.2 ⟨_, hv.knows_iff.2 (.inr ⟨rfl, le_rfl⟩)⟩
    refine ⟨⟨hv.grows, (h.grow hv.grows hv.transitions_eq).settle hholds, ?_, ?_⟩, hholds⟩
    all_goals obtain ⟨x, _, _, _, -, hfin, hpush, -⟩ := hv
    · rw [hpush, Array.size_push]
      exact Nat.lt_succ_self _
    · exact ⟨⟨b, .loopNest, .ok x⟩, by rw [hpush, Array.back?_push], x, rfl, hfin⟩
  · rintro _ r' ⟨⟨hlike, -⟩, e, hstate, hpush, hno⟩
    exact .first hstate hlike hpush hno

/-- A failure below a state that was stepped to is one of the state it was stepped from. -/
theorem Breaks.above {x : String} (h : Joins P r r')
    (hb : Breaks P c
      { r' with graph := (r'.graph.recordEdge ⟨fingerprint b, fingerprint c, x⟩).2 } r'')
    (hsource : r'.graph.Holds (fingerprint b)) : Breaks P b r r'' := by
  have hgrows := r'.graph.grows_recordEdge ⟨fingerprint b, fingerprint c, x⟩
  have hasked := h.asked
  cases hb with
  | after h' =>
    exact .after ⟨(h.grows.trans hgrows).trans h'.grows, h'.joined, hasked.trans h'.asked, h'.finite⟩
  | @first e hstate hlike hpush hno =>
    have hjoined := h.joined.recordEdge (t := ⟨fingerprint b, fingerprint c, x⟩) hsource
    obtain ⟨σ, hσ⟩ := hlike
    subst hstate
    refine .stepped (e := e) ?_ ⟨⟨fingerprint b, fingerprint e.state, x⟩, ?_, rfl⟩ ?_
      (by rw [hpush, Array.back?_push]) hno
    · rw [hσ]
      exact hjoined
    · rw [hσ]
      exact Graph.mem_recordEdge.2 (.inl rfl)
    · rw [hpush, Array.size_push]
      exact Nat.succ_lt_succ hasked
  | stepped hjoined hedge hlt hback hno =>
    exact .stepped hjoined hedge ((Nat.succ_lt_succ hasked).trans hlt) hback hno

/-- **Exploring** a state joins the transitions into it, or breaks off. -/
theorem explore_joins : ∀ (depth : Nat) {b : α} {r : Run α},
    r.graph.Joined (fun fp => fp = fingerprint b ∨ P fp) →
    Ends (explore s p depth b) r (fun _ r' => Joins P r r') (fun _ r' => Breaks P b r r')
  | 0, b, r, h => (visit_joins h).imp_ok fun _ _ h => h.1
  | depth + 1, b, r, h => by
    refine Ends.bind (visit_joins h) fun _ r₁ ⟨h₁, hb₁⟩ => ?_
    refine Ends.bind (expired_ends p) fun late r₂ ⟨hq₂, _⟩ => ?_
    have h₂ := h₁.quiet hq₂
    split
    · exact h₂
    refine Ends.bind ((choose_ends s p b).imp_error fun e r₃ ⟨hq₃, _⟩ =>
      .after (h₂.quiet hq₃)) fun xs r₃ ⟨hq₃, _⟩ => ?_
    have hb₃ : r₃.graph.Holds (fingerprint b) := (hb₁.grow hq₂.grows).grow hq₃.grows
    refine (ends_forM (fun _ r' => Joins P r r' ∧ r'.graph.Holds (fingerprint b)) xs []
      ⟨h₂.quiet hq₃, hb₃⟩ fun x _ _ r₄ ⟨h₄, hb₄⟩ => ?_).imp_ok fun _ _ h => h.1
    refine Ends.bind ((stepped_ends b x).imp_error ?_) ?_
    · rintro e _ ⟨rfl, -⟩
      exact .after h₄
    · rintro c r₄ ⟨rfl, -⟩
      refine ends_bind.2 (ends_changeGraph.2 ?_)
      have hgrows := r₄.graph.grows_recordEdge ⟨fingerprint b, fingerprint c, x⟩
      have h₅ : (r₄.graph.recordEdge ⟨fingerprint b, fingerprint c, x⟩).2.Joined
          fun fp => fp = fingerprint c ∨ P fp := h₄.joined.recordEdge hb₄
      refine (explore_joins depth h₅).imp (fun _ r₆ h₆ => ?_) fun _ r₆ h₆ => h₆.above h₄ hb₄
      exact ⟨⟨(h₄.grows.trans hgrows).trans h₆.grows, h₆.joined, h₄.asked.trans h₆.asked,
        h₆.finite⟩, (hb₄.grow hgrows).grow h₆.grows⟩

/-- What a call does to the transitions of a graph: it is refused at once, or it explores. -/
theorem expand_joins (h : r.graph.Joined P) :
    Ends (expand s p b steps) r (fun _ r' => Joins P r r')
      (fun _ r' => r' = r ∨ Breaks P b r r') :=
  expand_rule (fun _ => .inl rfl)
    ((explore_joins (reach steps) (h.imp fun _ => .inr)).imp_error fun _ _ h => .inr h)

/-- A call forgets no score, and keeps the indexes. -/
theorem expand_logged (hw : r.graph.Wired) :
    Ends (expand s p b steps) r
      (fun _ r' => r'.graph.Wired ∧ ∀ e ∈ r.trace.scored, e ∈ r'.trace.scored)
      (fun _ r' => r'.graph.Wired ∧ ∀ e ∈ r.trace.scored, e ∈ r'.trace.scored) := by
  refine expand_keeps (P := fun _ _ => True)
    (I := fun r' => r'.graph.Wired ∧ ∀ e ∈ r.trace.scored, e ∈ r'.trace.scored) ?_ ?_ ?_ trivial
    ⟨hw, fun _ he => he⟩
  · rintro r₁ r₂ ⟨hw, hlog⟩ hq
    obtain ⟨σ, hσ⟩ := hq.graph
    exact ⟨by rw [hσ]; exact hw.like _ σ, by rwa [hq.scored]⟩
  · rintro k c r₁ - ⟨hw, hlog⟩
    refine (visit_ends s p c).imp (fun _ r₂ hv => ⟨hv.wired hw, fun e he => ?_⟩) ?_
    · obtain ⟨x, _, _, _, -, -, hpush, -⟩ := hv
      rw [hpush]
      exact Array.mem_push_of_mem _ (hlog e he)
    · rintro _ r₂ ⟨⟨σ, hσ⟩, ⟨answer, hpush⟩, -⟩
      refine ⟨by rw [hσ]; exact hw.like _ σ, fun e he => ?_⟩
      rw [hpush]
      exact Array.mem_push_of_mem _ (hlog e he)
  · rintro k c x d r₁ - - ⟨hw, hlog⟩
    exact ⟨trivial, Graph.wired_recordEdge hw _, hlog⟩

/-- **A call** keeps a graph closed exactly if it does not abandon a state. -/
theorem expand_closed_iff (hw : r.graph.Wired) (h : r.graph.Closed) :
    ((expand s p b steps).leaves r).graph.Closed ↔ ¬ Abandons r ((expand s p b steps).leaves r) := by
  have hw' : ((expand s p b steps).leaves r).graph.Wired := (expand_logged hw).leaves.1
  have hcases : ((expand s p b steps).leaves r) = r ∨
      Breaks (fun _ => False) b r ((expand s p b steps).leaves r) :=
    ((expand_joins (hw.closed_iff.1 h)).imp_ok (fun _ _ h => .inr (.after h))).leaves
  generalize (expand s p b steps).leaves r = r' at *
  have hback : ∀ {e e' : Scored α}, r'.trace.scored.back? = some e →
      r'.trace.scored.back? = some e' → e = e' := fun h h' => Option.some.inj (h.symm.trans h')
  rcases hcases with rfl | hbreaks
  · exact ⟨fun _ ⟨hlt, _⟩ => absurd hlt (by omega), fun _ => h⟩
  cases hbreaks with
  | after hj =>
    refine ⟨?_, fun _ => hw'.closed_iff.2 hj.joined⟩
    rintro - ⟨-, e, he, hno, -⟩
    obtain ⟨e', he', hfin⟩ := hj.finite
    exact hno (hback he' he ▸ hfin)
  | first _ hlike hpush hno =>
    obtain ⟨σ, hσ⟩ := hlike
    refine ⟨?_, fun _ => by rw [hσ]; exact h⟩
    rintro - ⟨hlt, -⟩
    rw [hpush, Array.size_push] at hlt
    exact lt_irrefl _ hlt
  | @stepped e hjoined hedge hlt he hno =>
    obtain ⟨t, ht, htarget⟩ := hedge
    constructor
    · rintro hclosed ⟨-, e', he', -, hlost⟩
      obtain rfl := hback he he'
      obtain ⟨-, hheld⟩ := (hw'.closed_iff.1 hclosed) t ht
      exact hlost (htarget ▸ hheld.resolve_right id)
    · intro hkeeps
      have hheld : r'.graph.Holds (fingerprint e.state) :=
        Classical.not_not.1 fun hlost => hkeeps ⟨hlt, e, he, hno, hlost⟩
      exact hw'.closed_iff.2 (hjoined.settle hheld)

/-! ## Several calls -/

/-- A call that expands a graph. -/
structure ExpandCall (α : Type) where
  params : ExpandParams
  state : α
  steps : Int

/-- The run after several calls, in order, whether or not each succeeds. -/
def expandAll (s : Setting ε) (calls : List (ExpandCall α)) (r : Run α) : Run α :=
  calls.foldl (fun r call => (expand s call.params call.state call.steps).leaves r) r

theorem expandAll_take_succ (s : Setting ε) {calls : List (ExpandCall α)} (r : Run α) {i : Nat}
    (hi : i < calls.length) :
    expandAll s (calls.take (i + 1)) r =
      (expand s calls[i].params calls[i].state calls[i].steps).leaves
        (expandAll s (calls.take i) r) := by
  rw [List.take_succ_eq_append_getElem hi, expandAll, List.foldl_append, List.foldl_cons,
    List.foldl_nil, expandAll]

theorem Refused.grow {t t' : Trace α} {fp : Fingerprint} (h : Refused t fp)
    (hlog : ∀ e ∈ t.scored, e ∈ t'.scored) : Refused t' fp := by
  obtain ⟨e, he, hfp, hno⟩ := h
  exact ⟨e, hlog e he, hfp, hno⟩

/-- Whatever fails in a call, the sources are held, and the targets that were not refused a
    score. -/
theorem expand_joined (hw : r.graph.Wired) (h : r.graph.Joined (Refused r.trace)) :
    ((expand s p b steps).leaves r).graph.Joined
      (Refused ((expand s p b steps).leaves r).trace) := by
  have hlog : ∀ e ∈ r.trace.scored, e ∈ ((expand s p b steps).leaves r).trace.scored :=
    (expand_logged hw).leaves.2
  have hcases : ((expand s p b steps).leaves r) = r ∨
      Breaks (Refused r.trace) b r ((expand s p b steps).leaves r) :=
    ((expand_joins h).imp_ok (fun _ _ h => .inr (.after h))).leaves
  generalize (expand s p b steps).leaves r = r' at *
  rcases hcases with rfl | hbreaks
  · exact h
  cases hbreaks with
  | after hj => exact hj.joined.imp fun _ hr => hr.grow hlog
  | first _ hlike =>
    obtain ⟨σ, hσ⟩ := hlike
    rw [hσ]
    exact h.imp fun _ hr => hr.grow hlog
  | @stepped e hjoined _ _ he hno =>
    refine hjoined.imp fun fp hfp => hfp.elim (fun hfp => ?_) fun hr => hr.grow hlog
    exact ⟨e, Array.mem_of_back? he, hfp.symm, hno⟩

section
variable {calls : List (ExpandCall α)} {seed : UInt64} {t : Trace α}

theorem expandAll_joined : ∀ {i : Nat}, i ≤ calls.length →
    (expandAll s (calls.take i) ⟨.empty seed, t⟩).graph.Wired ∧
      (expandAll s (calls.take i) ⟨.empty seed, t⟩).graph.Joined
        (Refused (expandAll s (calls.take i) ⟨.empty seed, t⟩).trace)
  | 0, _ => ⟨Graph.wired_empty seed, Graph.joined_empty seed⟩
  | i + 1, hi => by
    obtain ⟨hw, hj⟩ := expandAll_joined (Nat.le_of_succ_le hi)
    rw [expandAll_take_succ s _ hi]
    exact ⟨(expand_logged hw).leaves.1, expand_joined hw hj⟩

theorem expandAll_closed
    (hkeeps : ∀ i < calls.length, ¬ Abandons (expandAll s (calls.take i) ⟨.empty seed, t⟩)
      (expandAll s (calls.take (i + 1)) ⟨.empty seed, t⟩)) :
    ∀ {i : Nat}, i ≤ calls.length →
      (expandAll s (calls.take i) ⟨.empty seed, t⟩).graph.Closed
  | 0, _ => (Graph.wired_empty seed).closed_iff.2 (Graph.joined_empty seed)
  | i + 1, hi => by
    have hclosed := expandAll_closed hkeeps (Nat.le_of_succ_le hi)
    have hkeep := hkeeps i hi
    rw [expandAll_take_succ s _ hi] at hkeep ⊢
    exact (expand_closed_iff (expandAll_joined (Nat.le_of_succ_le hi)).1 hclosed).2 hkeep

end

/-- **Closed graphs**: in every series of calls on a graph, each of which may fail, every edge
    has both ends after every call exactly if no call abandons a state that it stepped to.
    In any case the source of an edge is held, and its target unless it was refused a
    score. -/
theorem expandAll_closed_iff (s : Setting ε) (calls : List (ExpandCall α)) (seed : UInt64)
    (t : Trace α) :
    let r := fun i => expandAll s (calls.take i) ⟨.empty seed, t⟩
    (∀ i ≤ calls.length, ∀ e ∈ (r i).graph.edges, (r i).graph.Holds e.source ∧
        ((r i).graph.Holds e.target ∨ Refused (r i).trace e.target)) ∧
      ((∀ i ≤ calls.length, (r i).graph.Closed) ↔
        ∀ i < calls.length, ¬ Abandons (r i) (r (i + 1))) := by
  intro r
  refine ⟨fun i hi => ?_, fun h i hi => ?_, fun h i hi => expandAll_closed h hi⟩
  · obtain ⟨hw, hj⟩ : (r i).graph.Wired ∧ (r i).graph.Joined (Refused (r i).trace) :=
      expandAll_joined hi
    exact hw.joined_iff.1 hj
  · have hclosed := h (i + 1) hi
    have hstep : r (i + 1) = _ := expandAll_take_succ s ⟨.empty seed, t⟩ hi
    rw [hstep] at hclosed ⊢
    exact (expand_closed_iff (expandAll_joined hi.le).1 (h i hi.le)).1 hclosed

/-- The second state that this call scores is refused: the edge into it is stored, and the
    state is not. -/
theorem target_abandoned :
    let call : ExpandCall UpDown := ⟨⟨2, .loopNest, true, 0, none⟩, .start, 1⟩
    let r := expandAll ⟨Faltering.mk 1, ⟨id, 0⟩⟩ [call] ⟨.empty 0, .empty⟩
    ∃ e ∈ r.graph.edges.toList, e.source = fingerprint UpDown.start ∧
      ¬ r.graph.Holds e.target := by
  decide +kernel

end ScheduleSearch

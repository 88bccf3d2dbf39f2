/-
  Any use of a graph.

  A graph is used by calls in any order (`GraphCall`): states, transitions and times are
  recorded, with any fingerprints, actions and scores; the graph is expanded from any state of
  any agent, perhaps only part of the way; the best path is extracted, or found to be broken.

  * `wired_mark`: the indexes of a graph do not depend on the marks of the best path;
  * `Wired.after`: so every call keeps them, also one that fails;
  * **`indexes_after`**: after any calls each of the indexes says the same as the edges and
    the nodes, and so do the leaves and the answer to a transition that is offered.
-/
import ScheduleSearch.Proofs.Transitions

namespace ScheduleSearch

/-- A call on a graph. -/
inductive GraphCall where
  | record (fp : Fingerprint) (actions : List String) (score time : Float)
  | recordEdge (t : Transition)
  | recordDepthTime (depth : Nat) (time : Float)
  /-- expands the graph from a state, after the evaluator was asked what `asked` holds -/
  | expand {α ε : Type} [Agent α] [Evaluator ε α] (s : Setting ε) (p : ExpandParams) (a : α)
      (steps : Int) (asked : Trace α)
  | bestPath

namespace Graph

variable {g g' : Graph} {fp : Fingerprint} {t : Transition}

/-- The graph after a call, whether or not it succeeds. -/
def after (g : Graph) : GraphCall → Graph
  | .record fp actions score time => (g.record fp actions score time).2
  | .recordEdge t => (g.recordEdge t).2
  | .recordDepthTime depth time => g.recordDepthTime depth time
  | @GraphCall.expand α ε _ _ s p a steps asked =>
    ((SearchM.expand (α := α) (ε := ε) s p a steps).leaves ⟨g, asked⟩).graph
  | .bestPath =>
    match g.bestPath with
    | .ok _ g' | .error _ g' => g'

/-- The graph after several calls, in order. -/
def afterAll (g : Graph) (calls : List GraphCall) : Graph :=
  calls.foldl after g

/-! ## Marks -/

theorem Remarked.exists_node (h : g.Remarked g') {n : Node} (hn : g'.node? fp = some n) :
    ∃ m, g.node? fp = some m ∧ m.fingerprint = n.fingerprint := by
  have hfp := h.nodes fp
  rw [hn, Option.map_some, eq_comm, Option.map_eq_some_iff] at hfp
  obtain ⟨m, hm, hmn⟩ := hfp
  have hkey := congrArg Node.fingerprint hmn
  exact ⟨m, hm, hkey⟩

theorem Remarked.symm (h : g.Remarked g') : g'.Remarked g :=
  ⟨fun fp => (h.nodes fp).symm, h.edges.symm⟩

/-- The indexes are those of the transitions, whatever is marked. -/
theorem Wired.remarked (h : g.Wired) {nodes : Std.TreeMap Fingerprint Node} {edges : Array Edge}
    (hr : g.Remarked { g with nodes, edges }) : { g with nodes, edges }.Wired where
  keyed hn := by
    obtain ⟨m, hm, hfp⟩ := hr.exists_node hn
    rw [← hfp, h.keyed hm]
  best hfp := by
    obtain ⟨n, hn⟩ := h.best hfp
    obtain ⟨m, hm, -⟩ := hr.symm.exists_node hn
    exact ⟨m, hm⟩
  noBest hb fp := by
    cases hn : Graph.node? { g with nodes, edges } fp with
    | none => rfl
    | some n =>
      obtain ⟨m, hm, -⟩ := hr.exists_node hn
      rw [h.noBest hb fp] at hm
      cases hm
  nodup := by
    rw [hr.edges]
    exact h.nodup
  transitions t := by
    rw [hr.edges]
    exact h.transitions t
  inEdges fp := by
    have hsize : edges.size = g.edges.size := by
      simpa using congrArg List.length hr.edges
    have hget : ∀ i : Nat, (edges[i]?).any (·.target == fp) =
        (g.edges[i]?).any (·.target == fp) := by
      intro i
      have hi : (edges[i]?).map (·.toTransition) = (g.edges[i]?).map (·.toTransition) := by
        simpa using congrArg (·[i]?) hr.edges
      have hany := congrArg (Option.any (·.target == fp)) hi
      rwa [Option.any_map, Option.any_map] at hany
    simp only [hsize, hget]
    exact h.inEdges fp
  outDegree fp := by
    have hcount := congrArg (List.countP (·.source == fp)) hr.edges
    rw [List.countP_map, List.countP_map] at hcount
    exact (h.outDegree fp).trans hcount.symm

/-- Marking a walk keeps the indexes. -/
theorem wired_mark (h : g.Wired) (fuel : Nat) (fp : Fingerprint) :
    (g.mark (g.backWalk fuel fp)).Wired :=
  h.remarked ⟨node?_mark fun _ hn => h.mem_visited hn, edges_mark g _⟩

/-! ## Calls -/

/-- Extracting the best path does no more than mark a walk. -/
theorem after_bestPath (g : Graph) :
    g.after .bestPath = g ∨ ∃ fuel fp, g.after .bestPath = g.mark (g.backWalk fuel fp) := by
  unfold after bestPath
  cases g.bestNode? with
  | none => exact .inl rfl
  | some best =>
    refine .inr ⟨best.actions.length + 1, best.fingerprint, ?_⟩
    dsimp only
    cases (g.backWalk (best.actions.length + 1) best.fingerprint).fault <;> rfl

/-- **Every call** keeps the indexes, whether or not it succeeds. -/
theorem Wired.after (h : g.Wired) (call : GraphCall) : (g.after call).Wired := by
  cases call with
  | record fp actions score time => exact wired_record h fp actions score time
  | recordEdge t => exact wired_recordEdge h t
  | recordDepthTime depth time =>
    obtain ⟨depthTimes, hg, -⟩ := g.recordDepthTime_depthTimes depth time
    show (g.recordDepthTime depth time).Wired
    rw [hg]
    exact h.like depthTimes g.sampler
  | expand s p a steps asked => exact (expand_logged (r := ⟨g, asked⟩) h).leaves.1
  | bestPath =>
    rcases g.after_bestPath with hg | ⟨fuel, fp, hg⟩ <;> rw [hg]
    exacts [h, wired_mark h fuel fp]

theorem wired_afterAll (seed : UInt64) (calls : List GraphCall) :
    ((empty seed).afterAll calls).Wired := by
  suffices h : ∀ g : Graph, g.Wired → (g.afterAll calls).Wired from h _ (wired_empty seed)
  induction calls with
  | nil => exact fun _ h => h
  | cons call calls ih => exact fun g h => ih (g.after call) (h.after call)

/-! ## What the indexes say -/

theorem Wired.outDegree_eq_zero_iff (h : g.Wired) :
    g.outDegree fp = 0 ↔ ∀ e ∈ g.edges, e.source ≠ fp := by
  rw [h.outDegree, List.countP_eq_zero]
  simp only [beq_iff_eq, Array.mem_toList_iff, ne_eq]

theorem Wired.recordEdge_new_iff (h : g.Wired) :
    (g.recordEdge t).1 = true ↔ ∀ e ∈ g.edges, e.toTransition ≠ t := by
  have hmem : t ∈ g.transitions ↔ ∃ e ∈ g.edges, e.toTransition = t := by
    rw [h.transitions, List.mem_map]
    simp only [Array.mem_toList_iff]
  unfold recordEdge
  split
  · next ht =>
    obtain ⟨e, he, het⟩ := hmem.1 ht
    exact ⟨fun hf => (Bool.false_ne_true hf).elim, fun hno => absurd het (hno e he)⟩
  · next ht => exact ⟨fun _ e he het => ht (hmem.2 ⟨e, he, het⟩), fun _ => rfl⟩

/-- **After any calls** the indexes follow the edges and the nodes; the leaves are the nodes
    that no edge leaves, in the order of the nodes; and a transition is new exactly if no edge
    is stored for it. -/
theorem indexes_after (seed : UInt64) (calls : List GraphCall) :
    let g := (empty seed).afterAll calls
    g.Wired ∧
      (∀ n, n ∈ g.nodeList ↔ g.node? n.fingerprint = some n) ∧
      g.leaves = g.nodeList.filter (fun n => g.edges.all (·.source != n.fingerprint)) ∧
      ∀ t, (g.recordEdge t).1 = true ↔ ∀ e ∈ g.edges, e.toTransition ≠ t := by
  intro g
  have h : g.Wired := wired_afterAll seed calls
  refine ⟨h, fun _ => h.mem_nodeList, List.filter_congr fun n _ => ?_,
    fun _ => h.recordEdge_new_iff⟩
  rw [Bool.eq_iff_iff, beq_iff_eq, h.outDegree_eq_zero_iff, Array.all_eq_true']
  simp only [bne_iff_ne]

end Graph

end ScheduleSearch

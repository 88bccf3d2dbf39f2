/-
  What recording does to a graph.

  `Knows g fp k` says that a state is known along at most `k` actions.  Recording
  is read off through it and through the stored transitions; both only grow
  (`Grows`).

  * `node?_record`, `knows_record`: a state is stored unless it is known along as
    few actions;
  * `mem_recordEdge`: a transition is stored;
  * `Wired`: the indexes of a graph follow its edges and its nodes.  It holds of
    the empty graph, and recording keeps it (`wired_record`, `wired_recordEdge`);
  * `bestNode?_store`: which state is the best one after a node is stored;
  * `Peaked`: no score is above that of the best state.  Recording keeps it, as long
    as the best state is not stored with a lower score (`peaked_store`);
  * `mem_leaves`: the leaves are the nodes that no stored transition leaves;
  * `remaining_ne_nil`: the actions to the best state extend those of the state.
-/
import Mathlib.Data.List.Nodup
import ScheduleSearch.Proofs.FloatOrder
import ScheduleSearch.Search.Graph.Basic

namespace ScheduleSearch.Graph

variable {g g' : Graph} {fp fp' : Fingerprint} {actions : List String} {score time : Float}
  {t t' : Transition} {n : Node} {k : Nat}

/-- The state is known, along at most `k` actions. -/
def Knows (g : Graph) (fp : Fingerprint) (k : Nat) : Prop :=
  ∃ n, g.node? fp = some n ∧ n.actions.length ≤ k

theorem Knows.mono {l : Nat} (h : g.Knows fp k) (hl : k ≤ l) : g.Knows fp l := by
  obtain ⟨n, hn, hk⟩ := h
  exact ⟨n, hn, Nat.le_trans hk hl⟩

/-! ## Nodes -/

theorem node?_store (g : Graph) (n : Node) (fp : Fingerprint) :
    (g.store n).node? fp = if fp = n.fingerprint then some n else g.node? fp := by
  unfold store node?
  rw [Std.TreeMap.getElem?_insert]
  simp only [Std.LawfulEqOrd.compare_eq_iff_eq, eq_comm (a := fp)]

/-- What recording a state comes to: it is stored if it is not known along as
    few actions. -/
theorem record_cases (g : Graph) (fp : Fingerprint) (actions : List String) (score time : Float) :
    (¬ g.Knows fp actions.length ∧
        (g.record fp actions score time).2 = g.store ⟨fp, actions, score, time, false⟩) ∨
      g.Knows fp actions.length ∧ (g.record fp actions score time).2 = g := by
  unfold record Knows
  cases g.node? fp with
  | none => simp
  | some old =>
    dsimp only
    split
    · next h => simp [h]
    · next h => simp [Nat.not_lt.1 h]

/-- A node after a record is the one that was offered, or an old one. -/
theorem node?_record (h : (g.record fp actions score time).2.node? fp' = some n) :
    fp = fp' ∧ ⟨fp, actions, score, time, false⟩ = n ∨ g.node? fp' = some n := by
  rcases record_cases g fp actions score time with ⟨-, hg⟩ | ⟨-, hg⟩ <;> rw [hg] at h
  · rw [node?_store] at h
    split at h
    · next hfp => exact .inl ⟨hfp.symm, Option.some.inj h⟩
    · exact .inr h
  · exact .inr h

theorem knows_store : (g.store n).Knows fp k ↔
    fp = n.fingerprint ∧ n.actions.length ≤ k ∨ fp ≠ n.fingerprint ∧ g.Knows fp k := by
  unfold Knows
  rw [node?_store]
  split <;> simp [*]

theorem knows_record : (g.record fp actions score time).2.Knows fp' k ↔
    g.Knows fp' k ∨ fp' = fp ∧ actions.length ≤ k := by
  rcases record_cases g fp actions score time with ⟨hg, h⟩ | ⟨hg, h⟩ <;> rw [h]
  · rw [knows_store]
    by_cases hfp : fp' = fp
    · subst hfp
      have : g.Knows fp' k → actions.length ≤ k := fun h' =>
        (Nat.lt_or_ge k actions.length).elim (fun hk => absurd (h'.mono (Nat.le_of_lt hk)) hg) id
      simpa using this
    · simp [hfp]
  · constructor
    · exact .inl
    · rintro (h' | ⟨rfl, hk⟩)
      · exact h'
      · exact hg.mono hk

/-- Recording leaves the edges and their indexes alone. -/
theorem record_edges (g : Graph) (fp : Fingerprint) (actions : List String) (score time : Float) :
    ∃ nodes best, (g.record fp actions score time).2 = { g with nodes, best } := by
  rcases record_cases g fp actions score time with ⟨-, h⟩ | ⟨-, h⟩
  · exact ⟨_, _, h⟩
  · exact ⟨g.nodes, g.best, h⟩

theorem recordDepthTime_depthTimes (g : Graph) (depth : Nat) (time : Float) :
    ∃ depthTimes, g.recordDepthTime depth time = { g with depthTimes } ∧
      ∀ d, d ∈ depthTimes ↔ d = depth ∨ d ∈ g.depthTimes := by
  have hin : ∀ d, d ∈ g.depthTimes.insert depth time ↔ d = depth ∨ d ∈ g.depthTimes := fun d => by
    rw [Std.TreeMap.mem_insert, Std.LawfulEqOrd.compare_eq_iff_eq, eq_comm]
  unfold recordDepthTime
  split
  · exact ⟨_, rfl, hin⟩
  · next old hold =>
    split
    · exact ⟨_, rfl, hin⟩
    · have hmem : depth ∈ g.depthTimes := Std.TreeMap.mem_iff_isSome_getElem?.2 (by rw [hold]; rfl)
      exact ⟨g.depthTimes, rfl, fun d => ⟨.inr, fun h => h.elim (fun h => h ▸ hmem) id⟩⟩

/-- The curve has an entry for each depth up to the greatest of the recorded ones. -/
theorem lt_length_depthTimeCurve_iff {d : Nat} :
    d < g.depthTimeCurve.length ↔ ∃ k ∈ g.depthTimes, d ≤ k := by
  have hlen : ∀ k depth running, (g.curveFrom k depth running).length = k := by
    intro k
    induction k with
    | zero => exact fun _ _ => rfl
    | succ k ih => exact fun _ _ => congrArg (· + 1) (ih _ _)
  unfold depthTimeCurve
  cases hk : g.depthTimes.maxKey? with
  | none =>
    have hempty := Std.TreeMap.isEmpty_iff_forall_not_mem.1 (Std.TreeMap.maxKey?_eq_none_iff.1 hk)
    exact ⟨fun h => absurd h (Nat.not_lt_zero d), fun ⟨k, hmem, _⟩ => absurd hmem (hempty k)⟩
  | some k =>
    obtain ⟨hmem, hmax⟩ := Std.TreeMap.maxKey?_eq_some_iff_mem_and_forall.1 hk
    rw [hlen]
    constructor
    · exact fun h => ⟨k, hmem, Nat.le_of_lt_succ h⟩
    · rintro ⟨j, hj, hd⟩
      exact Nat.lt_succ_of_le (hd.trans (Nat.isLE_compare.1 (hmax j hj)))

/-! ## Transitions -/

theorem mem_recordEdge : t' ∈ (g.recordEdge t).2.transitions ↔ t' = t ∨ t' ∈ g.transitions := by
  unfold recordEdge
  split
  · next h =>
    have h : t ∈ g.transitions := h
    constructor
    · exact .inr
    · rintro (rfl | h')
      exacts [h, h']
  · show t' ∈ g.transitions.insert t ↔ _
    rw [Std.TreeSet.mem_insert, Std.LawfulEqOrd.compare_eq_iff_eq, eq_comm]

/-- Storing a transition leaves the nodes alone. -/
theorem recordEdge_nodes (g : Graph) (t : Transition) :
    ∃ edges transitions inEdges outDegrees,
      (g.recordEdge t).2 = { g with edges, transitions, inEdges, outDegrees } := by
  unfold recordEdge
  split
  · exact ⟨g.edges, g.transitions, g.inEdges, g.outDegrees, rfl⟩
  · exact ⟨_, _, _, _, rfl⟩

theorem knows_recordEdge : (g.recordEdge t).2.Knows fp k ↔ g.Knows fp k := by
  obtain ⟨_, _, _, _, h⟩ := recordEdge_nodes g t
  rw [h]
  rfl

/-! ## Growth -/

/-- Nothing that was known is forgotten, or known along more actions only. -/
structure Grows (g g' : Graph) : Prop where
  knows {fp : Fingerprint} {k : Nat} : g.Knows fp k → g'.Knows fp k
  transitions {t : Transition} : t ∈ g.transitions → t ∈ g'.transitions

theorem Grows.refl (g : Graph) : g.Grows g := ⟨id, id⟩

theorem Grows.trans {g₁ g₂ g₃ : Graph} (h : g₁.Grows g₂) (h' : g₂.Grows g₃) : g₁.Grows g₃ :=
  ⟨h'.knows ∘ h.knows, h'.transitions ∘ h.transitions⟩

theorem grows_record (g : Graph) (fp : Fingerprint) (actions : List String)
    (score time : Float) : g.Grows (g.record fp actions score time).2 := by
  refine ⟨fun h => knows_record.2 (.inl h), fun h => ?_⟩
  obtain ⟨nodes, best, hg⟩ := record_edges g fp actions score time
  rwa [hg]

theorem grows_recordEdge (g : Graph) (t : Transition) : g.Grows (g.recordEdge t).2 :=
  ⟨knows_recordEdge.2, fun h => mem_recordEdge.2 (.inr h)⟩

/-! ## Indexes -/

/-- The indexes follow the edges, every node is stored under its own state, and
    there is a best state as soon as there is any. -/
structure Wired (g : Graph) : Prop where
  keyed {fp : Fingerprint} {n : Node} : g.node? fp = some n → n.fingerprint = fp
  best {fp : Fingerprint} : g.best = some fp → ∃ n, g.node? fp = some n
  noBest : g.best = none → ∀ fp, g.node? fp = none
  nodup : (g.edges.toList.map (·.toTransition)).Nodup
  transitions (t : Transition) : t ∈ g.transitions ↔ t ∈ g.edges.toList.map (·.toTransition)
  inEdges (fp : Fingerprint) :
    g.inEdges.getD fp [] =
      (List.range g.edges.size).filter fun i => (g.edges[i]?).any (·.target == fp)
  outDegree (fp : Fingerprint) : g.outDegree fp = g.edges.toList.countP (·.source == fp)

theorem wired_empty (seed : UInt64) : (empty seed).Wired where
  keyed h := by cases h
  best h := by cases h
  noBest _ _ := rfl
  nodup := .nil
  transitions _ := by simp [empty]
  inEdges _ := rfl
  outDegree _ := rfl

/-- The times of the depths and the sampler have no part in it. -/
theorem Wired.like (h : g.Wired) (depthTimes : Std.TreeMap Nat Float) (sampler : Sampler) :
    { g with depthTimes, sampler }.Wired :=
  ⟨h.keyed, h.best, h.noBest, h.nodup, h.transitions, h.inEdges, h.outDegree⟩

theorem wired_store (h : g.Wired) (n : Node) : (g.store n).Wired where
  keyed {fp m} hm := by
    rw [node?_store] at hm
    split at hm
    · next hfp => cases hm; exact hfp.symm
    · exact h.keyed hm
  best {fp} hfp := by
    rw [node?_store]
    split
    · exact ⟨n, rfl⟩
    · next hne =>
      unfold store at hfp
      dsimp only at hfp
      split at hfp
      · exact absurd (Option.some.inj hfp).symm hne
      · exact h.best hfp
  noBest hfp := by
    unfold store at hfp
    dsimp only at hfp
    split at hfp
    · cases hfp
    · next hi => simp [improves, bestNode?, hfp] at hi
  nodup := h.nodup
  transitions := h.transitions
  inEdges := h.inEdges
  outDegree := h.outDegree

theorem wired_record (h : g.Wired) (fp : Fingerprint) (actions : List String)
    (score time : Float) : (g.record fp actions score time).2.Wired := by
  rcases record_cases g fp actions score time with ⟨-, hg⟩ | ⟨-, hg⟩ <;> rw [hg]
  · exact wired_store h _
  · exact h

theorem wired_recordEdge (h : g.Wired) (t : Transition) : (g.recordEdge t).2.Wired := by
  unfold recordEdge
  split
  · exact h
  next hnew =>
  have hnew : t ∉ g.edges.toList.map (·.toTransition) := fun ht =>
    hnew ((h.transitions t).2 ht)
  have hedges : (g.edges.push ⟨t, false⟩).toList.map (·.toTransition) =
      g.edges.toList.map (·.toTransition) ++ [t] := by simp
  refine ⟨h.keyed, h.best, h.noBest, ?_, fun t' => ?_, fun fp => ?_, fun fp => ?_⟩
  · rw [hedges, ← List.concat_eq_append]
    exact h.nodup.concat hnew
  · rw [hedges, List.mem_append, List.mem_singleton, ← h.transitions, or_comm, eq_comm]
    show t' ∈ g.transitions.insert t ↔ _
    rw [Std.TreeSet.mem_insert, Std.LawfulEqOrd.compare_eq_iff_eq]
  · have hold : ∀ i ∈ List.range g.edges.size,
        ((g.edges.push ⟨t, false⟩)[i]?).any (·.target == fp) =
          (g.edges[i]?).any (·.target == fp) := fun i hi => by
      have hi := List.mem_range.1 hi
      rw [Array.getElem?_push_lt hi, Array.getElem?_eq_getElem hi]
    dsimp only
    rw [Array.size_push, List.range_succ, List.filter_append, List.filter_congr hold, ← h.inEdges,
      Std.TreeMap.getD_insert]
    simp only [Std.LawfulEqOrd.compare_eq_iff_eq]
    split
    · next hfp => simp [hfp]
    · next hfp => simp [hfp]
  · show Std.TreeMap.getD (g.outDegrees.insert t.source (g.outDegree t.source + 1)) fp 0 = _
    rw [Std.TreeMap.getD_insert, Array.toList_push, List.countP_append, ← h.outDegree]
    simp only [Std.LawfulEqOrd.compare_eq_iff_eq]
    split
    · next hfp => simp [hfp]
    · next hfp => simp [hfp, outDegree]

/-- The positions of the edges into a state. -/
theorem Wired.mem_inEdges (h : g.Wired) {i : Nat} :
    i ∈ g.inEdges.getD fp [] ↔ ∃ e, g.edges[i]? = some e ∧ e.target = fp := by
  rw [h.inEdges, List.mem_filter, List.mem_range, Option.any_eq_true]
  simp only [beq_iff_eq]
  constructor
  · exact And.right
  · rintro ⟨e, he, hfp⟩
    exact ⟨(Array.getElem?_eq_some_iff.1 he).1, e, he, hfp⟩

/-! ## The best score -/

/-- No score is above that of the best state. -/
def Peaked (g : Graph) : Prop :=
  ∀ best, g.bestNode? = some best → ∀ fp m, g.node? fp = some m → m.score ≤ best.score

/-- There is a best state as soon as there is any. -/
theorem Wired.exists_best (h : g.Wired) (hn : g.node? fp = some n) :
    ∃ best, g.bestNode? = some best := by
  unfold bestNode?
  cases hb : g.best with
  | none => rw [h.noBest hb] at hn; cases hn
  | some fp' => exact h.best hb

/-- The best state is stored under its own fingerprint. -/
theorem Wired.node?_best (h : g.Wired) {best : Node} (hb : g.bestNode? = some best) :
    g.best = some best.fingerprint ∧ g.node? best.fingerprint = some best := by
  obtain ⟨fp, hfp, hnode⟩ := Option.bind_eq_some_iff.1 hb
  rw [h.keyed hnode]
  exact ⟨hfp, hnode⟩

theorem improves_iff : g.improves score ↔ ∀ best, g.bestNode? = some best → best.score < score := by
  unfold improves
  cases g.bestNode? <;> simp

/-- The best state after a node is stored: the new one if it improves, else the old
    one, perhaps as the new node. -/
theorem bestNode?_store (h : g.Wired) (n : Node) :
    (g.store n).bestNode? =
      match g.bestNode? with
      | none => some n
      | some best =>
        if best.score < n.score ∨ best.fingerprint = n.fingerprint then some n else some best := by
  have hstore : (g.store n).bestNode? =
      (if g.improves n.score then some n.fingerprint else g.best).bind (g.store n).node? := rfl
  rw [hstore, improves]
  cases hb : g.bestNode? with
  | none => simp [node?_store]
  | some best =>
    obtain ⟨hfp, hnode⟩ := h.node?_best hb
    by_cases hlt : best.score < n.score
    · simp [hlt, node?_store]
    · by_cases he : best.fingerprint = n.fingerprint
      · simp [hlt, hfp, he, node?_store]
      · simp [hlt, hfp, he, node?_store, hnode]

/-- Storing a node keeps the best state the best, unless it lowers its score. -/
theorem peaked_store (hw : g.Wired) (hp : g.Peaked)
    (hfin : ∀ fp m, g.node? fp = some m → m.score.isFinite) {new : Node} (hnew : new.score.isFinite)
    (hkeep : ∀ best, g.bestNode? = some best → best.fingerprint = new.fingerprint →
      best.score ≤ new.score) :
    (g.store new).Peaked := by
  have hn := FloatOrder.not_isNaN hnew
  intro best hbest fp m hm
  rw [bestNode?_store hw] at hbest
  rw [node?_store] at hm
  cases hg : g.bestNode? with
  | none =>
    -- the graph was empty
    rw [hg] at hbest
    cases hbest
    split at hm
    · cases hm; exact FloatOrder.refl hn
    · obtain ⟨top, htop⟩ := hw.exists_best hm
      rw [hg] at htop
      cases htop
  | some top =>
    have ht := FloatOrder.not_isNaN (hfin _ _ (hw.node?_best hg).2)
    have hle : m.score ≤ new.score ∨ m.score ≤ top.score := by
      split at hm
      · cases hm; exact .inl (FloatOrder.refl hn)
      · exact .inr (hp top hg _ _ hm)
    rw [hg] at hbest
    dsimp only at hbest
    split at hbest <;> cases hbest
    · next h =>
      have htop : top.score ≤ new.score := h.elim (FloatOrder.le_of_lt ht hn) (hkeep top hg)
      exact hle.elim id fun hle => FloatOrder.trans hle htop
    · next h =>
      have htop : new.score ≤ best.score := (FloatOrder.not_lt_iff ht hn).1 fun hl => h (.inl hl)
      exact hle.elim (fun hle => FloatOrder.trans hle htop) id

/-! ## Leaves -/

theorem nodeList_eq (g : Graph) : g.nodeList = g.nodes.toList.map (·.2) := by
  unfold nodeList
  rw [Std.TreeMap.values, Std.DTreeMap.values, Std.DTreeMap.Internal.Impl.values_eq_map_snd]
  show _ = (Std.DTreeMap.Internal.Impl.Const.toList g.nodes.inner.inner).map _
  rw [Std.DTreeMap.Internal.Impl.Const.toList_eq_toListModel_map]
  simp

theorem Wired.mem_nodeList (h : g.Wired) : n ∈ g.nodeList ↔ g.node? n.fingerprint = some n := by
  rw [nodeList_eq, List.mem_map]
  constructor
  · rintro ⟨⟨fp, m⟩, hm, rfl⟩
    have hm : g.node? fp = some m := Std.TreeMap.mem_toList_iff_getElem?_eq_some.1 hm
    rw [h.keyed hm]
    exact hm
  · intro hn
    exact ⟨(n.fingerprint, n), Std.TreeMap.mem_toList_iff_getElem?_eq_some.2 hn, rfl⟩

/-- The leaves are the nodes that no stored transition leaves. -/
theorem Wired.mem_leaves (h : g.Wired) : n ∈ g.leaves ↔
    g.node? n.fingerprint = some n ∧ ∀ t ∈ g.transitions, t.source ≠ n.fingerprint := by
  unfold leaves
  rw [List.mem_filter, h.mem_nodeList, beq_iff_eq, h.outDegree, List.countP_eq_zero]
  simp [h.transitions]

/-! ## The way to the best state -/

/-- The actions that remain lead from the recorded actions of a state to those of
    the best one. -/
theorem remaining_ne_nil (h : g.remaining fp ≠ []) :
    ∃ best base, g.bestNode? = some best ∧ g.node? fp = some base ∧
      best.actions = base.actions ++ g.remaining fp := by
  unfold remaining at h ⊢
  cases hbest : g.bestNode? with
  | none => simp [hbest] at h
  | some best =>
    cases hbase : g.node? fp with
    | none => simp [hbest, hbase] at h
    | some base =>
      simp only [hbest, hbase] at h ⊢
      split at h
      · next hp =>
        obtain ⟨xs, hxs⟩ := List.isPrefixOf_iff_prefix.1 hp.2
        refine ⟨best, base, rfl, rfl, ?_⟩
        rw [if_pos hp, ← hxs, List.drop_left]
      · exact absurd rfl h

end ScheduleSearch.Graph

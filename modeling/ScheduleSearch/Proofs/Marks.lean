/-
  What is marked after the best path was extracted.

  Extracting the best path marks what the walk back visits, also if the walk breaks off, and
  no call takes a mark away again.  A mark only goes with its node, when a shorter path to the
  state replaces it; an edge keeps its mark for good.

  * `mark_node?`, `mark_edges`: what marking a walk does to the nodes and the edges;
  * `Extends`: recording and expanding add what is not marked (`extends_after`);
  * `markedBy_afterAll`: so after any calls the marks are those of all the walks so far
    (`walks`), but for the nodes that were replaced since;
  * **`highlights_iff`**: right after an extraction exactly its own walk is marked if and only
    if it goes through all that the walks before it left marked.
-/
import ScheduleSearch.Proofs.GraphCalls

namespace ScheduleSearch.Graph

variable {g g' g'' : Graph} {fp : Fingerprint} {n : Node} {e : Edge} {w : BackWalk} {i : Nat}

/-! ## The walk of an extraction -/

/-- The walk that marks the best path. -/
def walk (g : Graph) : BackWalk :=
  match g.bestNode? with
  | none => ⟨[], [], [], some .emptyGraph⟩
  | some best => g.backWalk (best.actions.length + 1) best.fingerprint

/-- Extracting the best path is to follow the walk and to mark it. -/
theorem bestPath_eq (g : Graph) : g.bestPath =
    match g.walk.fault with
    | some fault => .error fault (g.mark g.walk)
    | none => .ok ⟨"" :: g.walk.actions.reverse, (g.walk.visited.map (·.score)).reverse,
        g.depthTimeCurve⟩ (g.mark g.walk) := by
  unfold bestPath walk
  cases g.bestNode? <;> rfl

theorem bestPath_of_arrives (h : g.walk.fault = none) : g.bestPath =
    .ok ⟨"" :: g.walk.actions.reverse, (g.walk.visited.map (·.score)).reverse,
      g.depthTimeCurve⟩ (g.mark g.walk) := by
  rw [bestPath_eq, h]

theorem mark_of_bestPath {t : Table} (h : g.bestPath = .ok t g') :
    t = ⟨"" :: g.walk.actions.reverse, (g.walk.visited.map (·.score)).reverse,
      g.depthTimeCurve⟩ ∧ g' = g.mark g.walk := by
  rw [bestPath_eq] at h
  split at h
  · cases h
  · cases h
    exact ⟨rfl, rfl⟩

theorem after_bestPath_eq (g : Graph) : g.after .bestPath = g.mark g.walk := by
  unfold after
  rw [bestPath_eq]
  cases g.walk.fault <;> rfl

theorem Wired.mem_walk (h : g.Wired) {m : Node} (hm : m ∈ g.walk.visited) :
    g.node? m.fingerprint = some m := by
  unfold walk at hm
  split at hm
  · cases hm
  · exact h.mem_visited hm

/-! ## What marking does -/

/-- Marking sets the marks of the visited states, and changes nothing else of a node. -/
theorem mark_node? (hw : ∀ m ∈ w.visited, g.node? m.fingerprint = some m) (fp : Fingerprint) :
    (g.mark w).node? fp = (g.node? fp).map fun n =>
      { n with onBestPath := n.onBestPath || w.visited.any (·.fingerprint == fp) } := by
  have hfold : ∀ (ns : List Node) (nodes : Std.TreeMap Fingerprint Node),
      (ns.foldl (fun nodes n => nodes.insert n.fingerprint { n with onBestPath := true })
        nodes)[fp]? =
      ((ns.reverse.find? (·.fingerprint == fp)).map fun n => { n with onBestPath := true }).or
        nodes[fp]? := by
    intro ns
    induction ns with
    | nil => exact fun _ => rfl
    | cons m ns ih =>
      intro nodes
      rw [List.foldl_cons, ih, List.reverse_cons, List.find?_append, Std.TreeMap.getElem?_insert]
      simp only [Std.LawfulEqOrd.compare_eq_iff_eq]
      cases ns.reverse.find? (·.fingerprint == fp) with
      | some m' => rfl
      | none =>
        by_cases hfp : m.fingerprint = fp
        · simp [hfp]
        · simp [hfp]
  show (w.visited.foldl _ g.nodes)[fp]? = _
  rw [hfold]
  cases hfind : w.visited.reverse.find? (·.fingerprint == fp) with
  | some m =>
    have hmem := List.mem_reverse.1 (List.mem_of_find?_eq_some hfind)
    have hfp : m.fingerprint = fp := by simpa using List.find?_some hfind
    have hany : w.visited.any (·.fingerprint == fp) = true :=
      List.any_eq_true.2 ⟨m, hmem, beq_iff_eq.2 hfp⟩
    rw [← hfp, hw m hmem, hfp, hany]
    simp
  | none =>
    have hany : w.visited.any (·.fingerprint == fp) = false := by
      rw [List.find?_eq_none] at hfind
      rw [List.any_eq_false]
      exact fun m hm => hfind m (List.mem_reverse.2 hm)
    rw [hany]
    simp only [Bool.or_false, Option.map_none, Option.none_or]
    show g.node? fp = _
    cases g.node? fp <;> rfl

/-- Marking sets the marks of the followed edges. -/
theorem mark_edges (g : Graph) (w : BackWalk) (i : Nat) :
    (g.mark w).edges[i]? = (g.edges[i]?).map fun e =>
      { e with onBestPath := e.onBestPath || w.edges.contains i } := by
  have hfold : ∀ (is : List Nat) (edges : Array Edge),
      (is.foldl (fun edges i => edges.modify i fun e => { e with onBestPath := true })
        edges)[i]? =
      (edges[i]?).map fun e => { e with onBestPath := e.onBestPath || is.contains i } := by
    intro is
    induction is with
    | nil =>
      intro edges
      cases h : edges[i]? <;> simp [h]
    | cons j is ih =>
      intro edges
      rw [List.foldl_cons, ih, Array.getElem?_modify]
      by_cases hj : j = i
      · subst hj
        cases edges[j]? <;> simp
      · have hij : (i == j) = false := beq_eq_false_iff_ne.2 (Ne.symm hj)
        rw [if_neg hj]
        simp only [List.contains_cons, hij, Bool.false_or]
  exact hfold w.edges g.edges

/-! ## What recording does -/

/-- The graph was recorded to: a node is one of before, or a new one without a mark along
    fewer actions than before, and the edges are those of before and new ones without marks. -/
structure Extends (g g' : Graph) : Prop where
  nodes {fp : Fingerprint} {n : Node} : g'.node? fp = some n →
    g.node? fp = some n ∨ n.onBestPath = false ∧ ¬ g.Knows fp n.actions.length
  knows {fp : Fingerprint} {k : Nat} : g.Knows fp k → g'.Knows fp k
  edges : ∃ new, g'.edges.toList = g.edges.toList ++ new ∧ ∀ e ∈ new, e.onBestPath = false

theorem Extends.refl (g : Graph) : g.Extends g :=
  ⟨.inl, id, [], (List.append_nil _).symm, fun _ he => absurd he List.not_mem_nil⟩

theorem Extends.trans (h : g.Extends g') (h' : g'.Extends g'') : g.Extends g'' where
  nodes hn := by
    rcases h'.nodes hn with hn | ⟨hmark, hk⟩
    · exact h.nodes hn
    · exact .inr ⟨hmark, fun hk' => hk (h.knows hk')⟩
  knows hk := h'.knows (h.knows hk)
  edges := by
    obtain ⟨new, hnew, hmarks⟩ := h.edges
    obtain ⟨new', hnew', hmarks'⟩ := h'.edges
    refine ⟨new ++ new', by rw [hnew', hnew, List.append_assoc], fun e he => ?_⟩
    exact (List.mem_append.1 he).elim (hmarks e) (hmarks' e)

/-- The times of the depths and the sampler have no part in it. -/
theorem extends_like (g : Graph) (depthTimes : Std.TreeMap Nat Float) (sampler : Sampler) :
    g.Extends { g with depthTimes, sampler } :=
  ⟨(Extends.refl g).nodes, id, (Extends.refl g).edges⟩

theorem extends_record (g : Graph) (fp : Fingerprint) (actions : List String)
    (score time : Float) : g.Extends (g.record fp actions score time).2 where
  nodes {fp' n} hn := by
    rcases record_cases g fp actions score time with ⟨hk, hg⟩ | ⟨-, hg⟩ <;> rw [hg] at hn
    · rw [node?_store] at hn
      split at hn
      · next hfp =>
        cases hn
        exact .inr ⟨rfl, hfp ▸ hk⟩
      · exact .inl hn
    · exact .inl hn
  knows := (g.grows_record fp actions score time).knows
  edges := by
    obtain ⟨nodes, best, hg⟩ := g.record_edges fp actions score time
    rw [hg]
    exact (Extends.refl g).edges

theorem extends_recordEdge (g : Graph) (t : Transition) : g.Extends (g.recordEdge t).2 where
  nodes hn := by
    obtain ⟨_, _, _, _, hg⟩ := g.recordEdge_nodes t
    rw [hg] at hn
    exact .inl hn
  knows := (g.grows_recordEdge t).knows
  edges := by
    unfold recordEdge
    split
    · exact (Extends.refl g).edges
    · exact ⟨[⟨t, false⟩], Array.toList_push, by simp⟩

open SearchM in
theorem extends_expand {α ε : Type} [Agent α] [Evaluator ε α] (g : Graph) (s : Setting ε)
    (p : ExpandParams) (a : α) (steps : Int) (asked : Trace α) :
    g.Extends ((expand s p a steps).leaves ⟨g, asked⟩).graph := by
  have hlike {r r' : Run α} (hg : g.Extends r.graph) (hl : r.graph.Like r'.graph) :
      g.Extends r'.graph := by
    obtain ⟨sampler, hl⟩ := hl
    rw [hl]
    exact hg.trans (extends_like _ _ sampler)
  refine (expand_keeps (P := fun _ _ => True) (I := fun r => g.Extends r.graph) ?_ ?_ ?_
    trivial (Extends.refl g)).leaves
  · exact fun hg hq => hlike hg hq.graph
  · intro k b r _ hg
    refine (visit_ends s p b).imp (fun _ r' hv => ?_) fun _ r' ⟨hl, _⟩ => hlike hg hl
    obtain ⟨x, time, depthTimes, sampler, -, -, -, hrecord, -⟩ := hv
    rw [hrecord]
    exact (hg.trans (extends_like _ depthTimes sampler)).trans (extends_record _ _ _ _ _)
  · exact fun _ _ hg => ⟨trivial, hg.trans (extends_recordEdge _ _)⟩

/-- **Every call** but an extraction adds what is not marked, whether or not it succeeds. -/
theorem extends_after (g : Graph) {call : GraphCall} (hc : call ≠ .bestPath) :
    g.Extends (g.after call) := by
  cases call with
  | record fp actions score time => exact extends_record g fp actions score time
  | recordEdge t => exact extends_recordEdge g t
  | recordDepthTime depth time =>
    obtain ⟨depthTimes, hg, -⟩ := g.recordDepthTime_depthTimes depth time
    show g.Extends (g.recordDepthTime depth time)
    rw [hg]
    exact extends_like g depthTimes g.sampler
  | expand s p a steps asked => exact extends_expand g s p a steps asked
  | bestPath => exact absurd rfl hc

/-- A new edge is not marked. -/
theorem Extends.edge (h : g.Extends g') (he : g'.edges[i]? = some e) :
    g.edges[i]? = some e ∨ e.onBestPath = false ∧ g.edges.size ≤ i := by
  obtain ⟨new, hnew, hmarks⟩ := h.edges
  rw [← Array.getElem?_toList, hnew, List.getElem?_append] at he
  split at he
  · exact .inl (by rwa [← Array.getElem?_toList])
  · next hi => exact .inr ⟨hmarks e (List.mem_of_getElem? he), Nat.not_lt.1 hi⟩

/-! ## All marks -/

/-- The walks of the calls that extract the best path, in order. -/
def walks (g : Graph) : List GraphCall → List BackWalk
  | [] => []
  | .bestPath :: calls => g.walk :: (g.after .bestPath).walks calls
  | call :: calls => (g.after call).walks calls

theorem walks_cons {call : GraphCall} (hc : call ≠ .bestPath) (g : Graph)
    (calls : List GraphCall) : g.walks (call :: calls) = (g.after call).walks calls := by
  cases call with
  | bestPath => exact absurd rfl hc
  | _ => rfl

theorem walks_append (g : Graph) (calls calls' : List GraphCall) :
    g.walks (calls ++ calls') = g.walks calls ++ (g.afterAll calls).walks calls' := by
  induction calls generalizing g with
  | nil => rfl
  | cons call calls ih =>
    show g.walks (call :: (calls ++ calls')) = _ ++ ((g.after call).afterAll calls).walks calls'
    by_cases hc : call = .bestPath
    · subst hc
      rw [walks, ih, walks, List.cons_append]
    · rw [walks_cons hc, walks_cons hc, ih]

/-- The marks are those of some walks: a node is marked if one of them visited it as it is,
    an edge if one of them followed it. -/
structure MarkedBy (g : Graph) (ws : List BackWalk) : Prop where
  knows {w : BackWalk} {m : Node} : w ∈ ws → m ∈ w.visited →
    g.Knows m.fingerprint m.actions.length
  stored {w : BackWalk} {i : Nat} : w ∈ ws → i ∈ w.edges → i < g.edges.size
  nodes {fp : Fingerprint} {n : Node} : g.node? fp = some n →
    (n.onBestPath = true ↔
      ∃ w ∈ ws, ∃ m ∈ w.visited, m.fingerprint = fp ∧ m.actions = n.actions)
  edges {i : Nat} {e : Edge} : g.edges[i]? = some e →
    (e.onBestPath = true ↔ ∃ w ∈ ws, i ∈ w.edges)

variable {ws : List BackWalk} {seed : UInt64}

theorem markedBy_empty (seed : UInt64) : (empty seed).MarkedBy [] :=
  ⟨fun h => absurd h List.not_mem_nil, fun h => absurd h List.not_mem_nil,
    fun hn => by simp [empty, node?] at hn, fun he => by simp [empty] at he⟩

/-- What is recorded is new to every walk so far. -/
theorem MarkedBy.extends (h : g.MarkedBy ws) (hg : g.Extends g') : g'.MarkedBy ws where
  knows hw hm := hg.knows (h.knows hw hm)
  stored hw hi := by
    obtain ⟨new, hnew, -⟩ := hg.edges
    have hsize := congrArg List.length hnew
    rw [List.length_append, Array.length_toList, Array.length_toList] at hsize
    have hlt := h.stored hw hi
    omega
  nodes hn := by
    rcases hg.nodes hn with hn | ⟨hmark, hk⟩
    · exact h.nodes hn
    · refine iff_of_false (by simp [hmark]) ?_
      rintro ⟨w, hw, m, hm, rfl, hactions⟩
      exact hk (hactions ▸ h.knows hw hm)
  edges he := by
    rcases hg.edge he with he | ⟨hmark, hsize⟩
    · exact h.edges he
    · refine iff_of_false (by simp [hmark]) ?_
      rintro ⟨w, hw, hi⟩
      exact absurd (h.stored hw hi) (Nat.not_lt.2 hsize)

/-- The edges that a walk follows are stored. -/
theorem Wired.lt_of_mem_edges (h : g.Wired) {fuel : Nat}
    (hi : i ∈ (g.backWalk fuel fp).edges) : i < g.edges.size := by
  induction fuel generalizing fp with
  | zero => cases hi
  | succ fuel ih =>
    rw [backWalk] at hi
    split at hi
    · cases hi
    split at hi
    · cases hi
    split at hi
    · cases hi
    · next j e hp =>
      rcases List.mem_cons.1 hi with rfl | hi
      · exact (Array.getElem?_eq_some_iff.1 (h.parentEdge?_some hp).1).1
      · exact ih hi

theorem Wired.lt_of_mem_walk (h : g.Wired) (hi : i ∈ g.walk.edges) : i < g.edges.size := by
  unfold walk at hi
  split at hi
  · cases hi
  · exact h.lt_of_mem_edges hi

/-- Marking a walk adds it to the others. -/
theorem MarkedBy.mark (h : g.MarkedBy ws) (hw : g.Wired) :
    (g.mark g.walk).MarkedBy (ws ++ [g.walk]) := by
  have hnode := mark_node? (w := g.walk) fun m hm => hw.mem_walk hm
  have hedge := mark_edges g g.walk
  have hknows : ∀ {fp k}, g.Knows fp k → (g.mark g.walk).Knows fp k := by
    rintro fp k ⟨n, hn, hk⟩
    have hmarked := hnode fp
    rw [hn, Option.map_some] at hmarked
    exact ⟨_, hmarked, hk⟩
  have hsize : (g.mark g.walk).edges.size = g.edges.size := by
    simpa using congrArg List.length (edges_mark g g.walk)
  refine ⟨fun {w m} hws hm => hknows ?_, fun {w i} hws hi => ?_, fun {fp n} hn => ?_,
    fun {i e} he => ?_⟩
  · rcases List.mem_append.1 hws with hws | hws
    · exact h.knows hws hm
    · rw [List.mem_singleton.1 hws] at hm
      exact ⟨m, hw.mem_walk hm, le_rfl⟩
  · rw [hsize]
    rcases List.mem_append.1 hws with hws | hws
    · exact h.stored hws hi
    · exact hw.lt_of_mem_walk (List.mem_singleton.1 hws ▸ hi)
  · rw [hnode] at hn
    obtain ⟨n, hold, rfl⟩ := Option.map_eq_some_iff.1 hn
    -- a state that is visited has the node of the graph, so its actions are the same
    have hvisit : (∃ m ∈ g.walk.visited, m.fingerprint = fp) ↔
        ∃ m ∈ g.walk.visited, m.fingerprint = fp ∧ m.actions = n.actions := by
      constructor
      · rintro ⟨m, hm, rfl⟩
        exact ⟨m, hm, rfl, congrArg Node.actions (Option.some.inj ((hw.mem_walk hm).symm.trans hold))⟩
      · rintro ⟨m, hm, hfp, -⟩
        exact ⟨m, hm, hfp⟩
    simp only [Bool.or_eq_true, List.any_eq_true, beq_iff_eq, h.nodes hold, hvisit,
      List.mem_append, List.mem_singleton, or_and_right, exists_or, exists_eq_left]
  · rw [hedge] at he
    obtain ⟨e, hold, rfl⟩ := Option.map_eq_some_iff.1 he
    simp only [Bool.or_eq_true, List.contains_iff_mem, h.edges hold, List.mem_append,
      List.mem_singleton, or_and_right, exists_or, exists_eq_left]

/-- **After any calls** the marks are those of all walks so far. -/
theorem markedBy_afterAll (seed : UInt64) (calls : List GraphCall) :
    ((empty seed).afterAll calls).MarkedBy ((empty seed).walks calls) := by
  induction calls using List.reverseRecOn with
  | nil => exact markedBy_empty seed
  | append_singleton calls call ih =>
    rw [walks_append, afterAll, List.foldl_concat, ← afterAll]
    by_cases hc : call = .bestPath
    · subst hc
      rw [after_bestPath_eq]
      exact ih.mark (wired_afterAll seed calls)
    · rw [walks_cons hc, walks, List.append_nil]
      exact ih.extends (extends_after _ hc)

/-! ## The marks of the last walk -/

/-- The states of the walk are the marked ones, and the edges that it follows. -/
def Highlights (g : Graph) (w : BackWalk) : Prop :=
  (∀ fp n, g.node? fp = some n → (n.onBestPath = true ↔ ∃ m ∈ w.visited, m.fingerprint = fp)) ∧
    ∀ i e, g.edges[i]? = some e → (e.onBestPath = true ↔ i ∈ w.edges)

/-- The walk back from the best state goes through all that an earlier one visited, but for
    states that were replaced since, and all that it followed. -/
def Retraces (g : Graph) (w : BackWalk) : Prop :=
  (∀ m ∈ w.visited, (∃ n ∈ g.node? m.fingerprint, n.actions = m.actions) →
      ∃ m' ∈ g.walk.visited, m'.fingerprint = m.fingerprint) ∧
    ∀ i ∈ w.edges, i ∈ g.walk.edges

instance (g : Graph) (w : BackWalk) : Decidable (g.Retraces w) :=
  inferInstanceAs (Decidable (_ ∧ _))

/-- **Right after an extraction** that succeeds, on a graph of any calls, its table is that of
    the walk back from the best state, and the marks are those of this walk and of all before.
    So just the one path is marked if and only if it retraces every walk before. -/
theorem highlights_iff (seed : UInt64) (calls : List GraphCall) {t : Table} {g' : Graph}
    (h : bestPath ((empty seed).afterAll calls) = .ok t g') :
    let g := (empty seed).afterAll calls
    let earlier := (empty seed).walks calls
    t = ⟨"" :: g.walk.actions.reverse, (g.walk.visited.map (·.score)).reverse,
        g.depthTimeCurve⟩ ∧
      g'.MarkedBy (earlier ++ [g.walk]) ∧
      (g'.Highlights g.walk ↔ ∀ w ∈ earlier, g.Retraces w) := by
  intro g earlier
  obtain ⟨ht, rfl⟩ := mark_of_bestPath h
  have hwired : g.Wired := wired_afterAll seed calls
  have hnode := mark_node? (w := g.walk) fun m hm => hwired.mem_walk hm
  have hmarks : (g.mark g.walk).MarkedBy (earlier ++ [g.walk]) :=
    (markedBy_afterAll seed calls).mark hwired
  refine ⟨ht, hmarks, fun hall w hw => ⟨fun m hm hstill => ?_, fun i hi => ?_⟩,
    fun hall => ⟨fun fp n hn => ?_, fun i e he => ?_⟩⟩
  · -- a node that an earlier walk left marked is marked, so it is on the walk
    obtain ⟨n, hn, hactions⟩ := hstill
    have hmarked := hnode m.fingerprint
    rw [Option.mem_def.1 hn, Option.map_some] at hmarked
    exact (hall.1 _ _ hmarked).1
      ((hmarks.nodes hmarked).2 ⟨w, List.mem_append_left _ hw, m, hm, rfl, hactions.symm⟩)
  · have hget := Array.getElem?_eq_getElem (hmarks.stored (List.mem_append_left _ hw) hi)
    exact (hall.2 _ _ hget).1 ((hmarks.edges hget).2 ⟨w, List.mem_append_left _ hw, hi⟩)
  · rw [hmarks.nodes hn]
    rw [hnode] at hn
    obtain ⟨old, hold, rfl⟩ := Option.map_eq_some_iff.1 hn
    constructor
    · rintro ⟨w, hw, m, hm, rfl, hactions⟩
      rcases List.mem_append.1 hw with hw | hw
      · exact (hall w hw).1 m hm ⟨old, hold, hactions.symm⟩
      · exact ⟨m, List.mem_singleton.1 hw ▸ hm, rfl⟩
    · rintro ⟨m, hm, rfl⟩
      have hactions : m.actions = old.actions :=
        congrArg Node.actions (Option.some.inj ((hwired.mem_walk hm).symm.trans hold))
      exact ⟨g.walk, List.mem_append_right _ (List.mem_singleton_self _), m, hm, rfl, hactions⟩
  · rw [hmarks.edges he]
    constructor
    · rintro ⟨w, hw, hi⟩
      rcases List.mem_append.1 hw with hw | hw
      · exact (hall w hw).2 i hi
      · exact List.mem_singleton.1 hw ▸ hi
    · exact fun hi => ⟨g.walk, List.mem_append_right _ (List.mem_singleton_self _), hi⟩

/-- A path that was extracted stays a part of the best one, so just the best one is marked. -/
theorem highlights_extended :
    let calls : List GraphCall :=
      [.record (.ofDump "root") [] 0 0, .record (.ofDump "A") ["a"] 1 0,
        .recordEdge ⟨.ofDump "root", .ofDump "A", "a"⟩, .bestPath,
        .record (.ofDump "B") ["a", "b"] 2 0, .recordEdge ⟨.ofDump "A", .ofDump "B", "b"⟩]
    ∃ t g', bestPath ((empty 0).afterAll calls) = .ok t g' ∧ t.actions = ["", "a", "b"] ∧
      g'.Highlights ((empty 0).afterAll calls).walk := by
  intro calls
  have hwalk : ((empty 0).afterAll calls).walk.fault = none ∧
      ((empty 0).afterAll calls).walk.actions = ["b", "a"] ∧
      ∀ w ∈ (empty 0).walks calls, ((empty 0).afterAll calls).Retraces w := by
    decide +kernel
  obtain ⟨harrives, hactions, hall⟩ := hwalk
  have h := bestPath_of_arrives harrives
  exact ⟨_, _, h, by rw [hactions]; rfl, (highlights_iff 0 calls h).2.2.2 hall⟩

/-- The best state moves to another branch: the path to the old one stays marked. -/
theorem stale_marks :
    let calls : List GraphCall :=
      [.record (.ofDump "root") [] 0 0, .record (.ofDump "A") ["a"] 1 0,
        .recordEdge ⟨.ofDump "root", .ofDump "A", "a"⟩, .bestPath,
        .record (.ofDump "B") ["b"] 2 0, .recordEdge ⟨.ofDump "root", .ofDump "B", "b"⟩]
    let g := (empty 0).afterAll calls
    ∃ t g', bestPath g = .ok t g' ∧ ¬ g'.Highlights g.walk := by
  intro calls g
  have hwalk : g.walk.fault = none ∧ (¬ ∃ m ∈ g.walk.visited, m.fingerprint = .ofDump "A") ∧
      ∃ n ∈ (g.mark g.walk).node? (.ofDump "A"), n.onBestPath = true := by
    decide +kernel
  obtain ⟨harrives, hoff, n, hn, hmark⟩ := hwalk
  exact ⟨_, _, bestPath_of_arrives harrives, fun hall => hoff ((hall.1 _ n hn).1 hmark)⟩

end ScheduleSearch.Graph

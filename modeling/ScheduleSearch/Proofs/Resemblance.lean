/-
  Graphs that differ in their times only.

  Two searches of the same states store the same nodes, but at other times, and a search
  that ranks its candidates never draws from its sampler.  `Graph.Alike` leaves both out.
  All that a search reads of its graph but the times is alike in alike graphs.

  * `Alike.record`, `Alike.recordEdge`, `Alike.recordDepthTime`: graphs stay alike, at
    whatever times the states are recorded;
  * `Alike.remaining`, `Alike.leaves_actions`, `Alike.isEmpty`, `Alike.candidates`: what
    is read of them is the same;
  * **`Alike.bestPath`**: so their best paths have the same actions and rewards, or the
    same fault.
-/
import ScheduleSearch.Proofs.Recording
import ScheduleSearch.Search.Graph.BestPath

namespace ScheduleSearch

/-- A node without its time and its mark. -/
def Node.bare (n : Node) : Node := { n with time := 0, onBestPath := false }

/-- A row without its time. -/
def Step.bare (r : Step) : String × Float := (r.action, r.reward)

/-- The same actions and rewards, and times for as many depths. -/
structure Table.Alike (t t' : Table) : Prop where
  actions : t.actions = t'.actions
  rewards : t.rewards = t'.rewards
  times : t.times.length = t'.times.length

namespace Graph

/-- The same graph but for the times and, unless candidates are drawn, the sampler. -/
structure Alike (ranked : Bool) (g g' : Graph) : Prop where
  nodes (fp : Fingerprint) : (g.node? fp).map Node.bare = (g'.node? fp).map Node.bare
  edges : g.edges = g'.edges
  transitions : g.transitions = g'.transitions
  inEdges : g.inEdges = g'.inEdges
  outDegrees : g.outDegrees = g'.outDegrees
  best : g.best = g'.best
  depths (d : Nat) : d ∈ g.depthTimes ↔ d ∈ g'.depthTimes
  sampler : ranked = false → g.sampler = g'.sampler

variable {ranked : Bool} {g g' : Graph} {n n' : Node}

theorem alike_sampler {sampler : Sampler} (h : ranked = false → g.sampler = sampler) :
    g.Alike ranked { g with sampler } where
  nodes _ := rfl
  edges := rfl
  transitions := rfl
  inEdges := rfl
  outDegrees := rfl
  best := rfl
  depths _ := .rfl
  sampler := h

theorem alike_empty {seed seed' : UInt64} (h : ranked = false → seed = seed') :
    (empty seed).Alike ranked (empty seed') :=
  alike_sampler (g := empty seed) fun hr => congrArg Sampler.ofSeed (h hr)

/-! ## Nodes -/

theorem actions_eq_of_bare (h : n.bare = n'.bare) : n.actions = n'.actions :=
  show n.bare.actions = n'.bare.actions by rw [h]

theorem score_eq_of_bare (h : n.bare = n'.bare) : n.score = n'.score :=
  show n.bare.score = n'.bare.score by rw [h]

theorem fingerprint_eq_of_bare (h : n.bare = n'.bare) : n.fingerprint = n'.fingerprint :=
  show n.bare.fingerprint = n'.bare.fingerprint by rw [h]

namespace Alike

variable (h : g.Alike ranked g')
include h

/-- A state is known to both graphs or to none. -/
theorem node? (fp : Fingerprint) :
    (g.node? fp = none ∧ g'.node? fp = none) ∨
      ∃ n n', g.node? fp = some n ∧ g'.node? fp = some n' ∧ n.bare = n'.bare := by
  have hfp := h.nodes fp
  cases hn : g.node? fp with
  | none => exact .inl ⟨rfl, by simpa [hn, eq_comm] using hfp⟩
  | some n =>
    cases hn' : g'.node? fp with
    | none => simp [hn, hn'] at hfp
    | some n' => exact .inr ⟨n, n', rfl, rfl, by simpa [hn, hn'] using hfp⟩

theorem bestNode? :
    (g.bestNode? = none ∧ g'.bestNode? = none) ∨
      ∃ n n', g.bestNode? = some n ∧ g'.bestNode? = some n' ∧ n.bare = n'.bare := by
  unfold Graph.bestNode?
  rw [← h.best]
  cases g.best with
  | none => exact .inl ⟨rfl, rfl⟩
  | some fp => exact h.node? fp

/-! ## Recording -/

theorem improves (score : Float) : g.improves score = g'.improves score := by
  unfold Graph.improves
  rcases h.bestNode? with ⟨hb, hb'⟩ | ⟨n, n', hb, hb', hn⟩
  · rw [hb, hb']
  · rw [hb, hb']
    dsimp only
    rw [score_eq_of_bare hn]

theorem store (hn : n.bare = n'.bare) : (g.store n).Alike ranked (g'.store n') where
  nodes fp := by
    rw [node?_store, node?_store, ← fingerprint_eq_of_bare hn]
    split
    · exact congrArg some hn
    · exact h.nodes fp
  edges := h.edges
  transitions := h.transitions
  inEdges := h.inEdges
  outDegrees := h.outDegrees
  best := by
    show (if g.improves n.score then some n.fingerprint else g.best) =
      if g'.improves n'.score then some n'.fingerprint else g'.best
    rw [h.improves, score_eq_of_bare hn, fingerprint_eq_of_bare hn, h.best]
  depths := h.depths
  sampler := h.sampler

/-- A state is recorded in both graphs or in none, whatever the times. -/
theorem record (fp : Fingerprint) (actions : List String) (score time time' : Float) :
    (g.record fp actions score time).2.Alike ranked (g'.record fp actions score time').2 := by
  unfold Graph.record
  rcases h.node? fp with ⟨hn, hn'⟩ | ⟨n, n', hn, hn', hnn⟩
  · rw [hn, hn']
    exact h.store rfl
  · rw [hn, hn']
    dsimp only
    rw [← actions_eq_of_bare hnn]
    split
    · exact h.store rfl
    · exact h

theorem recordEdge (t : Transition) :
    (g.recordEdge t).2.Alike ranked (g'.recordEdge t).2 := by
  unfold Graph.recordEdge
  rw [← h.transitions]
  split
  · exact h
  · exact {
      nodes := h.nodes
      edges := by rw [h.edges]
      transitions := by rw [h.transitions]
      inEdges := by rw [h.inEdges, h.edges]
      outDegrees := by unfold Graph.outDegree; rw [h.outDegrees]
      best := h.best
      depths := h.depths
      sampler := h.sampler }

theorem recordDepthTime (depth : Nat) (time time' : Float) :
    (g.recordDepthTime depth time).Alike ranked (g'.recordDepthTime depth time') := by
  obtain ⟨times, hg, hmem⟩ := recordDepthTime_depthTimes g depth time
  obtain ⟨times', hg', hmem'⟩ := recordDepthTime_depthTimes g' depth time'
  rw [hg, hg']
  exact { h with depths := fun d => by rw [hmem, hmem', h.depths] }

/-! ## Reading -/

theorem candidates (hr : ranked = false) (width : Nat) (actions : List String) :
    (g.candidates width actions).1 = (g'.candidates width actions).1 ∧
      (g.candidates width actions).2.Alike ranked (g'.candidates width actions).2 := by
  have hs := h.sampler hr
  unfold Graph.candidates
  dsimp only
  rw [hs]
  exact ⟨rfl, { h with sampler := fun _ => rfl }⟩

theorem remaining (fp : Fingerprint) : g.remaining fp = g'.remaining fp := by
  unfold Graph.remaining
  rcases h.bestNode? with ⟨hb, hb'⟩ | ⟨best, best', hb, hb', hbb⟩
  · rw [hb, hb']
  rcases h.node? fp with ⟨hn, hn'⟩ | ⟨n, n', hn, hn', hnn⟩
  · rw [hb, hb', hn, hn']
  · rw [hb, hb', hn, hn']
    dsimp only
    rw [fingerprint_eq_of_bare hbb, actions_eq_of_bare hbb, actions_eq_of_bare hnn]

/-- The nodes in order are the same, but for their times. -/
theorem nodeList : g.nodeList.map Node.bare = g'.nodeList.map Node.bare := by
  have hequiv : (g.nodes.map fun _ n => n.bare).Equiv (g'.nodes.map fun _ n => n.bare) := by
    refine Std.TreeMap.Equiv.of_forall_constGet?_eq fun fp => ?_
    rw [Std.TreeMap.getElem?_map, Std.TreeMap.getElem?_map]
    exact h.nodes fp
  have hlist := congrArg (List.map Prod.snd) hequiv.toList_eq
  rw [Std.TreeMap.toList_map, Std.TreeMap.toList_map] at hlist
  rw [nodeList_eq, nodeList_eq]
  simpa only [List.map_map, Function.comp_def] using hlist

theorem leaves_actions : g.leaves.map (·.actions) = g'.leaves.map (·.actions) := by
  have hfilter : ∀ (g : Graph), (g.leaves.map (·.actions)) =
      ((g.nodeList.map Node.bare).filter fun n => g.outDegree n.fingerprint == 0).map
        (·.actions) := fun g => by
    unfold Graph.leaves
    rw [List.filter_map, List.map_map]
    rfl
  rw [hfilter, hfilter, h.nodeList]
  unfold Graph.outDegree
  rw [h.outDegrees]

theorem isEmpty : g.isEmpty = g'.isEmpty := by
  have hempty : ∀ (g : Graph), g.isEmpty = (g.nodeList.map Node.bare).isEmpty := fun g => by
    rw [nodeList_eq]
    unfold Graph.isEmpty
    rw [← Std.TreeMap.isEmpty_toList]
    simp
  rw [hempty, hempty, h.nodeList]

/-! ## The best path -/

theorem sources (fp : Fingerprint) (action : String) :
    g.sources fp action = g'.sources fp action := by
  have hsource : ∀ fp, (g.node? fp).map (·.actions) = (g'.node? fp).map (·.actions) := fun fp => by
    have := congrArg (Option.map Node.actions) (h.nodes fp)
    simp only [Option.map_map] at this
    exact this
  unfold Graph.sources
  rw [h.inEdges, h.edges]
  refine List.filterMap_congr fun i _ => ?_
  split
  · rfl
  · next e _ =>
    have := congrArg (Option.map fun actions => (i, e, actions)) (hsource e.source)
    simp only [Option.map_map, Function.comp_def] at this
    rw [this]

theorem parentEdge? (fp : Fingerprint) (actions : List String) (last : String) :
    g.parentEdge? fp actions last = g'.parentEdge? fp actions last := by
  unfold Graph.parentEdge?
  rw [h.sources]

theorem backWalk (fuel : Nat) (fp : Fingerprint) :
    (g.backWalk fuel fp).visited.map Node.bare = (g'.backWalk fuel fp).visited.map Node.bare ∧
      (g.backWalk fuel fp).actions = (g'.backWalk fuel fp).actions ∧
      (g.backWalk fuel fp).fault = (g'.backWalk fuel fp).fault := by
  induction fuel generalizing fp with
  | zero => exact ⟨rfl, rfl, rfl⟩
  | succ fuel ih =>
    rw [Graph.backWalk, Graph.backWalk]
    rcases h.node? fp with ⟨hn, hn'⟩ | ⟨n, n', hn, hn', hnn⟩
    · rw [hn, hn']
      exact ⟨rfl, rfl, rfl⟩
    rw [hn, hn']
    dsimp only
    rw [← actions_eq_of_bare hnn]
    cases n.actions.getLast? with
    | none => exact ⟨congrArg (· :: []) hnn, rfl, rfl⟩
    | some last =>
      dsimp only
      rw [← h.parentEdge?]
      cases g.parentEdge? fp n.actions.dropLast last with
      | none => exact ⟨congrArg (· :: []) hnn, rfl, rfl⟩
      | some found =>
        obtain ⟨hv, ha, hf⟩ := ih found.2.source
        exact ⟨congrArg₂ List.cons hnn hv, congrArg (last :: ·) ha, hf⟩

theorem length_depthTimeCurve : g.depthTimeCurve.length = g'.depthTimeCurve.length := by
  refine eq_of_forall_lt_iff fun d => ?_
  rw [lt_length_depthTimeCurve_iff, lt_length_depthTimeCurve_iff]
  simp only [h.depths]

/-- **Alike best paths**: alike graphs have best paths with the same actions and rewards,
    or none for the same reason. -/
theorem bestPath :
    (∃ t t' q q', Graph.bestPath g = .ok t q ∧ Graph.bestPath g' = .ok t' q' ∧ t.Alike t') ∨
      ∃ e q q', Graph.bestPath g = .error e q ∧ Graph.bestPath g' = .error e q' := by
  unfold Graph.bestPath
  rcases h.bestNode? with ⟨hb, hb'⟩ | ⟨best, best', hb, hb', hbb⟩
  · rw [hb, hb']
    exact .inr ⟨_, _, _, rfl, rfl⟩
  rw [hb, hb']
  dsimp only
  rw [← fingerprint_eq_of_bare hbb, ← actions_eq_of_bare hbb]
  obtain ⟨hv, ha, hf⟩ := h.backWalk (best.actions.length + 1) best.fingerprint
  rw [← hf, ← ha]
  cases (g.backWalk (best.actions.length + 1) best.fingerprint).fault with
  | some fault => exact .inr ⟨_, _, _, rfl, rfl⟩
  | none =>
    refine .inl ⟨_, _, _, _, rfl, rfl, rfl, ?_, h.length_depthTimeCurve⟩
    have := congrArg (List.map Node.score) hv
    simp only [List.map_map] at this
    exact congrArg List.reverse this

end Alike

end Graph

/-! ## Tables -/

namespace Table.Alike

variable {t t' next next' : Table}

theorem path (h : t.Alike t') : t.path = t'.path :=
  congrArg (List.drop 1) h.actions

theorem finalReward? (h : t.Alike t') : t.finalReward? = t'.finalReward? :=
  congrArg List.getLast? h.rewards

/-- The actions and rewards of the rows, as far as there are times. -/
theorem rows_eq (t : Table) :
    t.rows.map Step.bare = (t.actions.zip t.rewards).take t.times.length := by
  obtain ⟨actions, rewards, times⟩ := t
  unfold Table.rows
  dsimp only
  induction actions generalizing rewards times with
  | nil => simp
  | cons action actions ih =>
    cases rewards with
    | nil => simp
    | cons reward rewards =>
      cases times with
      | nil => simp
      | cons time times => simpa [Step.bare] using ih rewards times

theorem rows (h : t.Alike t') :
    t.rows.map Step.bare = t'.rows.map Step.bare := by
  rw [rows_eq, rows_eq, h.actions, h.rewards, h.times]

theorem ofRows {rows rows' : List Step} (h : rows.map Step.bare = rows'.map Step.bare) :
    (Table.ofRows rows).Alike (Table.ofRows rows') := by
  have hactions : ∀ rows : List Step, (Table.ofRows rows).actions =
      (rows.map Step.bare).map Prod.fst := fun _ => by rw [List.map_map]; rfl
  have hrewards : ∀ rows : List Step, (Table.ofRows rows).rewards =
      (rows.map Step.bare).map Prod.snd := fun _ => by rw [List.map_map]; rfl
  have htimes : ∀ rows : List Step, (Table.ofRows rows).times.length =
      (rows.map Step.bare).length := fun _ => by simp [Table.ofRows]
  refine ⟨?_, ?_, ?_⟩
  · rw [hactions, hactions, h]
  · rw [hrewards, hrewards, h]
  · rw [htimes, htimes, h]

/-- Whatever the times are shifted by. -/
theorem concat (h : t.Alike t') (hnext : next.Alike next') (offset offset' : Float) :
    (t.concat next offset).Alike (t'.concat next' offset') := by
  have hrows : ∀ (t next : Table) (offset : Float),
      (t.rows ++ (next.rows.drop 1).map fun r : Step =>
        { r with elapsed := r.elapsed + offset }).map Step.bare =
      t.rows.map Step.bare ++ (next.rows.map Step.bare).drop 1 := fun t next offset => by
    rw [List.map_append, List.map_map, List.map_drop]
    rfl
  refine ofRows ?_
  rw [hrows, hrows, h.rows, hnext.rows]

end Table.Alike

end ScheduleSearch

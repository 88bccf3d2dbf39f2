/-
  The best path of any graph.

  A graph may hold states that were recorded by hand: actions that lead nowhere, transitions
  around a cycle or from a state to itself.  Still each step of the walk back from the best
  state enters a node with fewer recorded actions, so the walk ends: at a root, or at a node
  that its last action enters from no node with fewer (`Stuck`).

  * `Wired.backWalk_bound`: a bound above the number of recorded actions does not cut the
    walk off;
  * `Wired.fault_stuck`: under such a bound the walk fails at a stuck node only;
  * `Leads`: a table along a chain of transitions from a root to a node;
  * **`bestPath_after`**: after any calls the best path is missing from the empty graph only,
    and otherwise it is such a table, or broken at a stuck node.
-/
import ScheduleSearch.Proofs.GraphCalls

namespace ScheduleSearch.Graph

variable {g : Graph} {fp : Fingerprint} {n : Node} {x : String} {actions : List String}

/-! ## Where a walk ends -/

/-- The last action of a node enters it from no node with fewer actions. -/
structure Stuck (g : Graph) (n : Node) (x : String) : Prop where
  node : g.node? n.fingerprint = some n
  last : n.actions.getLast? = some x
  entered (m : Node) : g.node? m.fingerprint = some m →
    ⟨m.fingerprint, n.fingerprint, x⟩ ∈ g.transitions → n.actions.length ≤ m.actions.length

/-- A state has no parent only if no known one with as few actions enters it. -/
theorem Wired.parentEdge?_none (h : g.Wired) (hp : g.parentEdge? fp actions x = none) {m : Node}
    (hm : g.node? m.fingerprint = some m) (ht : ⟨m.fingerprint, fp, x⟩ ∈ g.transitions) :
    actions.length < m.actions.length := by
  refine Nat.lt_of_not_le fun hle => ?_
  have hent : g.Entered fp (actions ++ [x]) := by
    rintro before last heq
    obtain ⟨rfl, rfl⟩ := List.append_singleton_inj.1 heq
    exact ⟨m.fingerprint, ht, m, hm, hle⟩
  obtain ⟨i, e, hsome⟩ := h.parentEdge?_isSome hent
  rw [hp] at hsome
  cases hsome

/-- The parent of a node has fewer actions. -/
theorem Wired.parent_lt (h : g.Wired) (hx : n.actions.getLast? = some x) {i : Nat} {e : Edge}
    (hp : g.parentEdge? fp n.actions.dropLast x = some (i, e)) :
    ∃ m, g.node? e.source = some m ∧ m.actions.length < n.actions.length := by
  obtain ⟨-, -, -, m, hm, hle⟩ := h.parentEdge?_some hp
  have hne : n.actions ≠ [] := fun h0 => by simp [h0] at hx
  have := List.length_pos_iff.2 hne
  rw [List.length_dropLast] at hle
  exact ⟨m, hm, by omega⟩

/-- **The walk ends by itself**: whatever bound above the number of recorded actions it is
    given, it is the same. -/
theorem Wired.backWalk_bound (h : g.Wired) {bound bound' : Nat} (hn : g.node? fp = some n)
    (hb : n.actions.length < bound) (hb' : n.actions.length < bound') :
    g.backWalk bound fp = g.backWalk bound' fp := by
  induction bound generalizing bound' fp n with
  | zero => omega
  | succ bound ih =>
    obtain ⟨bound', rfl⟩ := Nat.exists_eq_add_one_of_ne_zero (Nat.ne_zero_of_lt hb')
    rw [backWalk, backWalk, hn]
    dsimp only
    cases hx : n.actions.getLast? with
    | none => rfl
    | some x =>
      dsimp only
      cases hp : g.parentEdge? fp n.actions.dropLast x with
      | none => rfl
      | some found =>
        obtain ⟨i, e⟩ := found
        obtain ⟨m, hm, hlt⟩ := h.parent_lt hx hp
        dsimp only
        rw [ih hm (by omega) (by omega : m.actions.length < bound')]

/-- A walk that is not cut off fails at a stuck node only. -/
theorem Wired.fault_stuck (h : g.Wired) {bound : Nat} (hn : g.node? fp = some n)
    (hb : n.actions.length < bound) {fault : SearchError}
    (hf : (g.backWalk bound fp).fault = some fault) :
    ∃ m x, g.Stuck m x ∧ fault = .brokenBestPath m.fingerprint.text x
      "no incoming edge with this action from a shallower node" := by
  induction bound generalizing fp n with
  | zero => omega
  | succ bound ih =>
    rw [backWalk, hn] at hf
    dsimp only at hf
    cases hx : n.actions.getLast? with
    | none =>
      rw [hx] at hf
      cases hf
    | some x =>
      rw [hx] at hf
      dsimp only at hf
      cases hp : g.parentEdge? fp n.actions.dropLast x with
      | none =>
        rw [hp] at hf
        cases hf
        have hkey := h.keyed hn
        refine ⟨n, x, ⟨by rwa [hkey], hx, fun m hm ht => ?_⟩, by rw [hkey]⟩
        have hlt := h.parentEdge?_none hp hm (hkey ▸ ht)
        rw [List.length_dropLast] at hlt
        omega
      | some found =>
        obtain ⟨i, e⟩ := found
        rw [hp] at hf
        obtain ⟨m, hm, hlt⟩ := h.parent_lt hx hp
        exact ih hm (by omega) hf

/-! ## The table -/

/-- The table of a way from a root to a node, along transitions between nodes with ever more
    recorded actions. -/
structure Leads (g : Graph) (n : Node) (t : Table) : Prop where
  actions_eq : t.actions = "" :: t.path
  rewards_eq : t.rewards.length = t.actions.length
  length_le : t.actions.length ≤ n.actions.length + 1
  last_eq : t.rewards.getLast? = some n.score
  chain : ∃ ns, g.Chain (n :: ns) t.path.reverse ∧
    t.rewards.reverse = (n :: ns).map (·.score)

theorem leads_chain {ns : List Node} {xs : List String} (hc : g.Chain (n :: ns) xs)
    (times : List Float) :
    g.Leads n ⟨"" :: xs.reverse, ((n :: ns).map (·.score)).reverse, times⟩ where
  actions_eq := rfl
  rewards_eq := by simpa using hc.length_eq
  length_le := by simpa using hc.length_le
  last_eq := by simp
  chain := ⟨ns, by simpa [Table.path] using hc, by simp⟩

theorem Wired.nodeCount_eq_zero_iff (h : g.Wired) : g.nodeCount = 0 ↔ g.bestNode? = none := by
  rw [nodeCount, ← beq_iff_eq, ← Std.TreeMap.isEmpty_eq_size_eq_zero,
    Std.TreeMap.isEmpty_iff_forall_not_mem]
  constructor
  · intro hempty
    cases hbest : g.bestNode? with
    | none => rfl
    | some best =>
      have hnode : g.nodes[best.fingerprint]? = some best := (h.node?_best hbest).2
      exact absurd (Std.TreeMap.mem_iff_isSome_getElem?.2 (by rw [hnode]; rfl)) (hempty _)
  · intro hbest fp hmem
    obtain ⟨n, hn⟩ := Option.isSome_iff_exists.1 (Std.TreeMap.mem_iff_isSome_getElem?.1 hmem)
    obtain ⟨best, hsome⟩ := h.exists_best hn
    rw [hbest] at hsome
    cases hsome

/-- **The best path** after any calls: there is none exactly if no node was recorded; otherwise
    the walk back from the best node ends by itself, with a table that leads there, or at a
    node that is stuck. -/
theorem bestPath_after (seed : UInt64) (calls : List GraphCall) :
    let g := (empty seed).afterAll calls
    (g.nodeCount = 0 ∧ g.bestPath = .error .emptyGraph g) ∨
      0 < g.nodeCount ∧ ∃ best, g.bestNode? = some best ∧
        (∀ bound, best.actions.length < bound →
          g.backWalk bound best.fingerprint =
            g.backWalk (best.actions.length + 1) best.fingerprint) ∧
        ((∃ n x g', g.Stuck n x ∧ g.bestPath = .error (.brokenBestPath n.fingerprint.text x
            "no incoming edge with this action from a shallower node") g') ∨
          ∃ t g', g.bestPath = .ok t g' ∧ g.Leads best t) := by
  intro g
  have h : g.Wired := wired_afterAll seed calls
  cases hbest : g.bestNode? with
  | none =>
    refine .inl ⟨h.nodeCount_eq_zero_iff.2 hbest, ?_⟩
    unfold bestPath
    rw [hbest]
  | some best =>
    have hnode := (h.node?_best hbest).2
    have hlt := Nat.lt_succ_self best.actions.length
    refine .inr ⟨?_, best, rfl, fun bound hb => h.backWalk_bound hnode hb hlt, ?_⟩
    · refine Nat.pos_of_ne_zero fun h0 => ?_
      rw [h.nodeCount_eq_zero_iff.1 h0] at hbest
      cases hbest
    cases hpath : g.bestPath with
    | ok t g' =>
      obtain ⟨best', ns, xs, hbest', hc, rfl, -⟩ := bestPath_chain h hpath
      obtain rfl : best = best' := Option.some.inj (hbest.symm.trans hbest')
      exact .inr ⟨_, g', rfl, leads_chain hc _⟩
    | error err g' =>
      unfold bestPath at hpath
      rw [hbest] at hpath
      dsimp only at hpath
      split at hpath
      · next fault hf =>
        cases hpath
        obtain ⟨n, x, hs, rfl⟩ := h.fault_stuck hnode hlt hf
        exact .inl ⟨n, x, _, hs, rfl⟩
      · cases hpath

end ScheduleSearch.Graph

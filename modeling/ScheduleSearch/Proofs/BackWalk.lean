/-
  The walk back from the best state.

  `Chain g ns xs` is a way back from a node to a root: the nodes and the actions
  between them, the end first, along stored transitions from nodes with fewer
  actions.

  * `chain_backWalk`: a walk without a fault is a chain;
  * `fault_backWalk`: a walk has no fault if every node is entered by its last
    action from a node with fewer (`Entered`);
  * `bestPath_chain`: a table of the best path has the scores on a chain that ends at
    the best node, and `bestPath_ok`: there is one if the walk has no fault;
  * `Remarked`: marking a walk changes no more than the marks (`node?_mark`,
    `edges_mark`).
-/
import Mathlib.Data.List.Induction
import ScheduleSearch.Proofs.Recording
import ScheduleSearch.Search.Graph.BestPath

namespace ScheduleSearch.Graph

variable {g g' : Graph} {fp : Fingerprint} {n : Node} {x : String} {xs actions : List String}

/-! ## Parents -/

/-- If the actions to a state end in some action, a transition with this action
    enters the state, from one that is known along the others or fewer. -/
def Entered (g : Graph) (fp : Fingerprint) (actions : List String) : Prop :=
  ∀ before last, actions = before ++ [last] →
    ∃ source, ⟨source, fp, last⟩ ∈ g.transitions ∧ g.Knows source before.length

theorem Entered.grow (h : g.Entered fp actions) (hg : g.Grows g') : g'.Entered fp actions :=
  fun before last ha => by
    obtain ⟨source, ht, hs⟩ := h before last ha
    exact ⟨source, hg.transitions ht, hg.knows hs⟩

theorem Wired.mem_sources (h : g.Wired) {i : Nat} {e : Edge} :
    (i, e, actions) ∈ g.sources fp x ↔
      g.edges[i]? = some e ∧ e.target = fp ∧ e.action = x ∧
        ∃ m, g.node? e.source = some m ∧ m.actions = actions := by
  unfold sources
  rw [List.mem_filterMap]
  constructor
  · rintro ⟨j, hj, hm⟩
    obtain ⟨e', he', hfp⟩ := h.mem_inEdges.1 hj
    rw [he'] at hm
    dsimp only at hm
    split at hm
    · next hx =>
      obtain ⟨m, hsrc, heq⟩ := Option.map_eq_some_iff.1 hm
      cases heq
      exact ⟨he', hfp, hx, m, hsrc, rfl⟩
    · cases hm
  · rintro ⟨he, hfp, hx, m, hm, rfl⟩
    refine ⟨i, h.mem_inEdges.2 ⟨e, he, hfp⟩, ?_⟩
    rw [he]
    dsimp only
    rw [if_pos hx, hm]
    rfl

section Shallowest
variable {β : Type} {bound : Nat} {entries : List (Nat × β × List String)}
  {entry : Nat × β × List String}

theorem shallowest_concat (y : Nat × β × List String) :
    shallowest bound (entries ++ [y]) =
      if y.2.2.length < (shallowest bound entries).elim bound (·.2.2.length) then some y
      else shallowest bound entries := by
  rw [shallowest, List.foldl_append, ← shallowest]
  cases shallowest bound entries <;> rfl

theorem shallowest_some (h : shallowest bound entries = some entry) :
    entry ∈ entries ∧ entry.2.2.length < bound := by
  induction entries using List.reverseRecOn generalizing entry with
  | nil => cases h
  | append_singleton entries y ih =>
    rw [shallowest_concat] at h
    split at h
    · next hlt =>
      cases h
      refine ⟨List.mem_concat_self, ?_⟩
      cases hs : shallowest bound entries with
      | none => rwa [hs] at hlt
      | some found =>
        rw [hs] at hlt
        exact Nat.lt_trans hlt (ih hs).2
    · exact ⟨List.mem_append_left _ (ih h).1, (ih h).2⟩

theorem shallowest_none (h : shallowest bound entries = none) :
    ∀ entry ∈ entries, bound ≤ entry.2.2.length := by
  induction entries using List.reverseRecOn with
  | nil => simp
  | append_singleton entries y ih =>
    rw [shallowest_concat] at h
    split at h
    · cases h
    · next hlt =>
      rw [h] at hlt
      intro entry hentry
      rcases List.mem_append.1 hentry with hentry | hentry
      · exact ih h entry hentry
      · rw [List.mem_singleton.1 hentry]
        exact Nat.not_lt.1 hlt

end Shallowest

/-- The parent of a state is known along no more actions than the state has
    before its last. -/
theorem Wired.parentEdge?_some (h : g.Wired) {i : Nat} {e : Edge}
    (hp : g.parentEdge? fp actions x = some (i, e)) :
    g.edges[i]? = some e ∧ e.target = fp ∧ e.action = x ∧ g.Knows e.source actions.length := by
  unfold parentEdge? at hp
  obtain ⟨⟨j, e', source⟩, hfound, heq⟩ := Option.map_eq_some_iff.1 hp
  obtain ⟨rfl, rfl⟩ := Prod.mk.inj heq
  have hmem : (j, e', source) ∈ g.sources fp x ∧ source.length ≤ actions.length := by
    rcases Option.or_eq_some_iff.1 hfound with hf | ⟨-, hs⟩
    · have heq := List.find?_some hf
      exact ⟨List.mem_of_find?_eq_some hf, Nat.le_of_eq (congrArg List.length (beq_iff_eq.1 heq))⟩
    · exact ⟨(shallowest_some hs).1, Nat.lt_succ_iff.1 (shallowest_some hs).2⟩
  obtain ⟨he, hfp, hx, m, hm, rfl⟩ := h.mem_sources.1 hmem.1
  exact ⟨he, hfp, hx, m, hm, hmem.2⟩

theorem Wired.parentEdge?_isSome (h : g.Wired) (he : g.Entered fp (actions ++ [x])) :
    ∃ i e, g.parentEdge? fp actions x = some (i, e) := by
  obtain ⟨source, ht, m, hm, hk⟩ := he actions x rfl
  obtain ⟨e, hmem, he⟩ := List.mem_map.1 ((h.transitions _).1 ht)
  obtain ⟨i, hi, hget⟩ := List.mem_iff_getElem.1 hmem
  have hsrc : (i, e, m.actions) ∈ g.sources fp x := by
    refine h.mem_sources.2 ⟨?_, congrArg Transition.target he, congrArg Transition.action he, m,
      ?_, rfl⟩
    · rw [← hget, ← Array.getElem?_toList]
      exact List.getElem?_eq_getElem hi
    · rw [congrArg Transition.source he]
      exact hm
  cases hp : g.parentEdge? fp actions x with
  | some found => exact ⟨found.1, found.2, rfl⟩
  | none =>
    have hor := Option.or_eq_none_iff.1 (Option.map_eq_none_iff.1 hp)
    have := shallowest_none hor.2 _ hsrc
    exact absurd this (by dsimp only; omega)

/-! ## Chains -/

/-- A way back from a node to a root: the nodes, and the actions between them, the
    end first. -/
inductive Chain (g : Graph) : List Node → List String → Prop
  | root {n : Node} : g.node? n.fingerprint = some n → n.actions = [] → Chain g [n] []
  | step {n m : Node} {ns : List Node} {x : String} {xs : List String} :
      g.node? n.fingerprint = some n → n.actions.getLast? = some x →
      ⟨m.fingerprint, n.fingerprint, x⟩ ∈ g.transitions →
      m.actions.length < n.actions.length → Chain g (m :: ns) xs → Chain g (n :: m :: ns) (x :: xs)

theorem Chain.length_eq {ns : List Node} (h : g.Chain ns xs) : ns.length = xs.length + 1 := by
  induction h with
  | root => rfl
  | step _ _ _ _ _ ih => rw [List.length_cons, ih, List.length_cons]

theorem Chain.mem_node {ns : List Node} (h : g.Chain ns xs) (hn : n ∈ ns) :
    g.node? n.fingerprint = some n := by
  induction h with
  | root hm => rwa [List.mem_singleton.1 hn]
  | step hm _ _ _ _ ih =>
    rcases List.mem_cons.1 hn with rfl | hn
    exacts [hm, ih hn]

/-- A chain has no more actions than the node at its end. -/
theorem Chain.length_le {ns : List Node} (h : g.Chain (n :: ns) xs) :
    xs.length ≤ n.actions.length := by
  induction xs generalizing n ns with
  | nil => exact Nat.zero_le _
  | cons x xs ih =>
    cases h with
    | step _ _ _ hlt h =>
      have := ih h
      rw [List.length_cons]
      omega

/-- Every visited node is a node of the graph, whether or not the walk arrives. -/
theorem Wired.mem_visited (h : g.Wired) {fuel : Nat} (hn : n ∈ (g.backWalk fuel fp).visited) :
    g.node? n.fingerprint = some n := by
  induction fuel generalizing fp with
  | zero => cases hn
  | succ fuel ih =>
    rw [backWalk] at hn
    cases hm : g.node? fp with
    | none => simp [hm] at hn
    | some m =>
      have hm' : g.node? m.fingerprint = some m := by rw [h.keyed hm, hm]
      simp only [hm] at hn
      split at hn
      · rw [List.mem_singleton.1 hn, hm']
      split at hn
      · rw [List.mem_singleton.1 hn, hm']
      · rcases List.mem_cons.1 hn with rfl | hn
        · exact hm'
        · exact ih hn

/-- A walk without a fault is a chain. -/
theorem chain_backWalk (h : g.Wired) {fuel : Nat} (hw : (g.backWalk fuel fp).fault = none) :
    ∃ n ns, g.node? fp = some n ∧ (g.backWalk fuel fp).visited = n :: ns ∧
      g.Chain (n :: ns) (g.backWalk fuel fp).actions := by
  induction fuel generalizing fp with
  | zero => cases hw
  | succ fuel ih =>
    rw [backWalk] at hw ⊢
    cases hn : g.node? fp with
    | none => simp [hn] at hw
    | some n =>
      have hn' : g.node? n.fingerprint = some n := by rw [h.keyed hn, hn]
      simp only [hn] at hw ⊢
      cases hx : n.actions.getLast? with
      | none => exact ⟨n, [], rfl, rfl, .root hn' (List.getLast?_eq_none_iff.1 hx)⟩
      | some x =>
        simp only [hx] at hw ⊢
        cases hp : g.parentEdge? fp n.actions.dropLast x with
        | none => simp [hp] at hw
        | some found =>
          obtain ⟨i, e⟩ := found
          simp only [hp] at hw ⊢
          obtain ⟨he, hfp, hex, m, hm, hk⟩ := h.parentEdge?_some hp
          obtain ⟨m', ns, hm', hv, hc⟩ := ih hw
          obtain rfl : m = m' := Option.some.inj (hm.symm.trans hm')
          refine ⟨n, m :: ns, rfl, by rw [hv], .step hn' hx ?_ ?_ hc⟩
          · rw [h.transitions, h.keyed hm, h.keyed hn, ← hfp, ← hex]
            exact List.mem_map_of_mem (Array.mem_toList_iff.2 (Array.mem_of_getElem? he))
          · have hne : n.actions ≠ [] := fun h0 => by simp [h0] at hx
            have := List.length_pos_iff.2 hne
            rw [List.length_dropLast] at hk
            omega

/-- A walk has no fault where every node is entered by its last action. -/
theorem fault_backWalk (h : g.Wired)
    (he : ∀ fp n, g.node? fp = some n → g.Entered fp n.actions) {fuel : Nat}
    (hn : g.node? fp = some n) (hk : n.actions.length < fuel) :
    (g.backWalk fuel fp).fault = none := by
  induction fuel generalizing fp n with
  | zero => omega
  | succ fuel ih =>
    rw [backWalk]
    simp only [hn]
    cases hx : n.actions.getLast? with
    | none => rfl
    | some x =>
      obtain ⟨before, hb⟩ := List.getLast?_eq_some_iff.1 hx
      have hent := he fp n hn
      rw [hb] at hent
      obtain ⟨i, e, hp⟩ := h.parentEdge?_isSome hent
      simp only [hb, List.dropLast_concat, hp]
      obtain ⟨-, -, -, m, hm, hm'⟩ := h.parentEdge?_some hp
      refine ih hm ?_
      rw [hb, List.length_append, List.length_singleton] at hk
      omega

/-! ## Marks -/

/-- A node without its mark. -/
def unmarked (n : Node) : Node := { n with onBestPath := false }

/-- The same nodes and edges, but perhaps for their marks. -/
structure Remarked (g g' : Graph) : Prop where
  nodes (fp : Fingerprint) : (g'.node? fp).map unmarked = (g.node? fp).map unmarked
  edges : g'.edges.toList.map (·.toTransition) = g.edges.toList.map (·.toTransition)

/-- Marking changes no more of a node than its mark. -/
theorem node?_mark {w : BackWalk} (hw : ∀ n ∈ w.visited, g.node? n.fingerprint = some n)
    (fp : Fingerprint) :
    ((g.mark w).node? fp).map unmarked = (g.node? fp).map unmarked := by
  -- on the way, some of the nodes are marked already
  suffices hn : ∀ (ns : List Node) (nodes : Std.TreeMap Fingerprint Node),
      (∀ n ∈ ns, (nodes[n.fingerprint]?).map unmarked = some (unmarked n)) →
      ((ns.foldl (fun nodes n => nodes.insert n.fingerprint { n with onBestPath := true })
        nodes)[fp]?).map unmarked = (nodes[fp]?).map unmarked from
    hn w.visited g.nodes fun n h => congrArg (Option.map unmarked) (hw n h)
  intro ns
  induction ns with
  | nil => exact fun _ _ => rfl
  | cons n ns ih =>
    intro nodes hns
    have hstep : ∀ fp, ((nodes.insert n.fingerprint { n with onBestPath := true })[fp]?).map
        unmarked = (nodes[fp]?).map unmarked := fun fp => by
      rw [Std.TreeMap.getElem?_insert]
      simp only [Std.LawfulEqOrd.compare_eq_iff_eq]
      split
      · next hfp => rw [← hfp, hns n (List.mem_cons_self)]; rfl
      · rfl
    rw [List.foldl_cons, ih _ fun m hm => ?_, hstep]
    rw [hstep, hns m (List.mem_cons_of_mem _ hm)]

theorem edges_mark (g : Graph) (w : BackWalk) :
    (g.mark w).edges.toList.map (·.toTransition) = g.edges.toList.map (·.toTransition) := by
  suffices hn : ∀ (is : List Nat) (edges : Array Edge),
      (is.foldl (fun edges i => edges.modify i fun e => { e with onBestPath := true })
        edges).toList.map (·.toTransition) = edges.toList.map (·.toTransition) from
    hn w.edges g.edges
  intro is
  induction is with
  | nil => exact fun _ => rfl
  | cons i is ih =>
    intro edges
    rw [List.foldl_cons, ih, Array.toList_modify]
    refine List.ext_getElem? fun j => ?_
    rw [List.getElem?_map, List.getElem?_map, List.getElem?_modify]
    split <;> cases edges.toList[j]? <;> rfl

/-! ## The best path -/

/-- The table of the best path is that of a chain to the best state. -/
theorem bestPath_chain (h : g.Wired) {t : Table} (hp : bestPath g = .ok t g') :
    ∃ best ns xs, g.bestNode? = some best ∧ g.Chain (best :: ns) xs ∧
      t = ⟨"" :: xs.reverse, ((best :: ns).map (·.score)).reverse, g.depthTimeCurve⟩ ∧
      g.Remarked g' := by
  unfold bestPath at hp
  cases hbest : g.bestNode? with
  | none => simp [hbest] at hp
  | some best =>
    simp only [hbest] at hp
    cases hfault : (g.backWalk (best.actions.length + 1) best.fingerprint).fault with
    | some fault => simp [hfault] at hp
    | none =>
      obtain ⟨best', ns, hbest', hv, hc⟩ := chain_backWalk h hfault
      obtain rfl : best = best' := Option.some.inj ((h.node?_best hbest).2.symm.trans hbest')
      simp only [hfault, hv] at hp
      cases hp
      exact ⟨best, ns, _, rfl, hc, rfl, node?_mark fun n hn => h.mem_visited hn, edges_mark g _⟩

/-- There is a table of the best path if there is any node, and every node is
    entered by its last action. -/
theorem bestPath_ok (h : g.Wired) (he : ∀ fp n, g.node? fp = some n → g.Entered fp n.actions)
    (hn : g.node? fp = some n) :
    ∃ best ns xs g', g.bestNode? = some best ∧ g.Chain (best :: ns) xs ∧
      bestPath g =
        .ok ⟨"" :: xs.reverse, ((best :: ns).map (·.score)).reverse, g.depthTimeCurve⟩ g' ∧
      g.Remarked g' := by
  obtain ⟨best, hbest⟩ := h.exists_best hn
  have hfault := fault_backWalk h he (h.node?_best hbest).2 (Nat.lt_succ_self _)
  obtain ⟨t, g', hp⟩ : ∃ t g', bestPath g = .ok t g' := by
    unfold bestPath
    simp only [hbest, hfault]
    exact ⟨_, _, rfl⟩
  obtain ⟨best', ns, xs, hbest', hc, rfl, hmark⟩ := bestPath_chain h hp
  exact ⟨best', ns, xs, g', hbest', hc, hp, hmark⟩

end ScheduleSearch.Graph

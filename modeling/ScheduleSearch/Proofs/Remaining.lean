/-
  Where the remaining actions lead.

  An expansion returns what the best recorded actions have beyond those of the expanded
  state.  The state may have come another and longer way than the recorded one, and the best
  state may lie off its way altogether.

  * `Stems`: recorded actions lead to their states; every expansion of a state on a way from
    the root keeps this (`expand_stems`), whether or not it succeeds;
  * `remaining_leads`: the remaining actions can be taken from the state that asks for them,
    although they extend other actions than its own, and there are none exactly if the state
    is the best one or the best one lies elsewhere;
  * `Pursuit`: a graph that is expanded again and again, from any states on ways from the
    root, so from known states and from states after committed actions;
  * **`expand_leads`**: an expansion in such a series returns actions to the best state, if
    any; the first one always does, unless its own state is the best.
-/
import ScheduleSearch.Proofs.DetourWorld
import ScheduleSearch.Proofs.Series

namespace ScheduleSearch

open Agent SearchM

variable {α ε : Type} [Agent α] [Evaluator ε α] {s : Setting ε} {p : ExpandParams} {a b c : α}
  {xs suffix : List String} {steps : Int} {i k n : Nat} {g : Graph} {r r' : Run α}

/-! ## Recorded ways -/

/-- The nodes are the states after their recorded actions, which go on from those of `a` by
    at most `n`. -/
def Stems (a : α) (n : Nat) (g : Graph) : Prop :=
  ∀ ⦃fp : Fingerprint⦄ ⦃m : Node⦄, g.node? fp = some m →
    ∃ xs b, m.actions = history a ++ xs ∧ xs.length ≤ n ∧ Replays a xs b ∧ fingerprint b = fp

theorem stems_empty (seed : UInt64) : Stems a n (.empty seed) := by
  intro fp m hm
  cases hm

theorem Stems.record (h : Stems a n g) (hb : Replays a xs b) (hn : xs.length ≤ n)
    (hh : history b = history a ++ xs) (score time : Float) :
    Stems a n (g.record (fingerprint b) (history b) score time).2 := by
  intro fp m hm
  rcases Graph.node?_record hm with ⟨rfl, rfl⟩ | hm
  · exact ⟨xs, b, hh, hn, hb, rfl⟩
  · exact h hm

/-- **Whether or not it succeeds**, an expansion of a state on a way from `a` keeps the
    recorded ways. -/
theorem expand_stems (hw : World a n) (hg : r.graph.Wired) (h : Stems a n r.graph)
    (hb : Replays a xs b) (hn : xs.length + reach steps ≤ n) :
    Ends (expand s p b steps) r (fun _ r' => r'.graph.Wired ∧ Stems a n r'.graph)
      (fun _ r' => r'.graph.Wired ∧ Stems a n r'.graph) := by
  refine expand_keeps (P := fun k c => ∃ xs, Replays a xs c ∧ xs.length + k ≤ n)
    (I := fun r' => r'.graph.Wired ∧ Stems a n r'.graph) ?_ ?_ ?_ ⟨xs, hb, hn⟩ ⟨hg, h⟩
  · rintro r r' ⟨hg, h⟩ hq
    obtain ⟨σ, hσ⟩ := hq.graph
    rw [hσ]
    exact ⟨hg.like _ σ, h⟩
  · rintro k c r ⟨xs, hc, hn⟩ ⟨hg, h⟩
    refine (visit_ends s p c).imp (fun _ r' hv => ⟨hv.wired hg, ?_⟩) ?_
    · obtain ⟨x, time, times, σ, -, -, -, hrecord, -⟩ := hv
      have hstems : Stems a n { r.graph with depthTimes := times, sampler := σ } := h
      rw [hrecord]
      exact hstems.record hc (by omega) (hw.history_replays (.start (n := 0)) hc (by omega)) x time
    · rintro _ r' ⟨⟨σ, hσ⟩, -⟩
      rw [hσ]
      exact ⟨hg.like _ σ, h⟩
  · rintro k c x d r ⟨xs, hc, hn⟩ hm ⟨hg, h⟩
    refine ⟨⟨xs ++ [x], replays_concat.2 ⟨c, hc, hm⟩, ?_⟩, Graph.wired_recordEdge hg _, ?_⟩
    · rw [List.length_append, List.length_singleton]
      omega
    · obtain ⟨_, _, _, _, hrecord⟩ := r.graph.recordEdge_nodes ⟨fingerprint c, fingerprint d, x⟩
      rw [hrecord]
      exact h

/-! ## What an expansion returns -/

/-- An explored state is known along its own actions. -/
theorem explore_knows (s : Setting ε) (p : ExpandParams) (b : α) (depth : Nat) :
    Ends (explore s p depth b) r
      (fun _ r' => r'.graph.Knows (fingerprint b) (history b).length) (fun _ _ => True) :=
  explore_rule (P := fun _ _ => True)
    (I := fun r' => r'.graph.Knows (fingerprint b) (history b).length)
    (fun h hq => hq.grows.knows h) (fun _ => trivial)
    (fun _ h => (visit_ends s p _).imp (fun _ _ hv => hv.grows.knows h) fun _ _ _ => trivial)
    (fun _ _ h => ⟨trivial, Graph.knows_recordEdge.2 h⟩) depth trivial
    ((visit_ends s p b).imp (fun _ _ hv => hv.knows_iff.2 (.inr ⟨rfl, le_rfl⟩))
      fun _ _ _ => trivial)

/-- An expansion that succeeds knows its state, and returns what remains to the best one. -/
theorem remaining_of_expand (h : expand s p b steps r = .ok suffix r') :
    r'.graph.Knows (fingerprint b) (history b).length ∧
      suffix = r'.graph.remaining (fingerprint b) ∧ reach steps = steps.toNat := by
  have hends : Ends (expand s p b steps) r
      (fun suffix r' => r'.graph.Knows (fingerprint b) (history b).length ∧
        suffix = r'.graph.remaining (fingerprint b) ∧ reach steps = steps.toNat)
      (fun _ _ => True) := by
    unfold expand reach
    split
    · exact ends_throw.2 trivial
    split
    · exact ends_throw.2 trivial
    · exact Ends.bind (explore_knows s p b steps.toNat) fun _ r' h =>
        ends_bind.2 (ends_graph.2 (ends_pure.2 ⟨h, rfl, rfl⟩))
  exact hends.ok h

/-- What a computation returns, if it succeeds. -/
def returned? {β : Type} : EStateM.Result SearchError (Run α) β → Option β
  | .ok v _ => some v
  | .error .. => none

omit [Agent α] in
theorem returned?_eq_some {β : Type} {result : EStateM.Result SearchError (Run α) β} {v : β}
    (h : returned? result = some v) : ∃ r', result = .ok v r' := by
  cases result with
  | ok v' r' => exact ⟨r', by rw [Option.some.inj h]⟩
  | error => cases h

/-- What remains from a known state, as a condition on the recorded actions. -/
theorem Graph.remaining_eq {fp : Fingerprint} {best base : Node} (hbest : g.bestNode? = some best)
    (hbase : g.node? fp = some base) : g.remaining fp =
      if best.fingerprint ≠ fp ∧ base.actions <+: best.actions then
        best.actions.drop base.actions.length
      else [] := by
  unfold remaining
  simp only [hbest, hbase, List.isPrefixOf_iff_prefix]

/-- **The remaining actions** lead from a known state to the best one, whichever way the
    state came; there are none exactly if it is the best state, or its recorded actions do
    not go on to those of the best one. -/
theorem remaining_leads (hw : World a (n + n)) (hg : g.Wired) (h : Stems a n g)
    (hb : Replays a xs b) (hn : xs.length ≤ n) (hk : g.Knows (fingerprint b) k) :
    ∃ best base, g.bestNode? = some best ∧ g.node? (fingerprint b) = some base ∧
      (g.remaining (fingerprint b) ≠ [] →
        ∃ c, Replays b (g.remaining (fingerprint b)) c ∧ fingerprint c = best.fingerprint) ∧
      (g.remaining (fingerprint b) = [] ↔
        best.fingerprint = fingerprint b ∨ ¬ base.actions <+: best.actions) := by
  obtain ⟨base, hbase, -⟩ := hk
  obtain ⟨best, hbest⟩ := hg.exists_best hbase
  refine ⟨best, base, hbest, hbase, ?_⟩
  obtain ⟨ys, d, hbase', hys, hd, hdb⟩ := h hbase
  obtain ⟨zs, e, hbest', hzs, he, heb⟩ := h (hg.node?_best hbest).2
  rw [Graph.remaining_eq hbest hbase]
  by_cases hlead : best.fingerprint ≠ fingerprint b ∧ base.actions <+: best.actions
  · obtain ⟨hne, rest, hrest⟩ := hlead
    rw [if_pos ⟨hne, rest, hrest⟩, ← hrest, List.drop_left]
    rw [← hrest, hbase', List.append_assoc, List.append_cancel_left_eq] at hbest'
    subst hbest'
    rw [List.length_append] at hzs
    obtain ⟨d', hd', hde⟩ := replays_append.1 he
    obtain rfl := hd'.unique hd
    -- the recorded actions lead to a state with the dump of `b`
    have hdump : dump d' = dump b :=
      hw.distinct (hd.within (by omega)) (hb.within (by omega)) hdb
    have hway : ∃ c, Replays b rest c ∧ fingerprint c = best.fingerprint := by
      obtain ⟨c, hc, hec⟩ := hw.replays_congr (hd.within le_rfl) (hb.within le_rfl) hdump hde
        (by omega) (by omega)
      exact ⟨c, hc, (World.fingerprint_congr hec).symm.trans heb⟩
    refine ⟨fun _ => hway, iff_of_false ?_ ?_⟩
    · rintro rfl
      rw [replays_nil.1 hde] at heb
      exact hne (heb.symm.trans hdb)
    · rintro (hfp | hno)
      · exact hne hfp
      · exact hno (List.prefix_append _ _)
  · rw [if_neg hlead]
    refine ⟨fun hne => absurd rfl hne, iff_of_true rfl ?_⟩
    rwa [not_and_or, not_not] at hlead

/-! ## Several expansions -/

/-- The runs that expansions leave one after the other, whether or not each succeeds.  Each
    begins at a state that accepted actions make of `root`, and goes at most `n` actions deep
    with these: at the root itself, at the state that recorded actions lead to, or at the
    state after the first of the actions that an expansion returned. -/
inductive Pursuit (s : Setting ε) (root : α) (n : Nat) (r : Run α) : Run α → Prop
  | none : Pursuit s root n r r
  | next {r' : Run α} {b : α} {xs : List String} (p : ExpandParams) (steps : Int) :
      Pursuit s root n r r' → Replays root xs b → xs.length + steps.toNat ≤ n →
      Pursuit s root n r ((expand s p b steps).leaves r')

theorem pursuit_stems {seed : UInt64} {t : Trace α} (hw : World a n)
    (h : Pursuit s a n ⟨.empty seed, t⟩ r) : r.graph.Wired ∧ Stems a n r.graph := by
  induction h with
  | none => exact ⟨Graph.wired_empty seed, stems_empty seed⟩
  | @next r b xs p steps _ hb hn ih =>
    have := reach_le steps
    exact (expand_stems hw ih.1 ih.2 hb (by omega)).leaves

/-- **An expansion that succeeds**, after any others of the graph, returns actions that lead
    from its state to the best one, or none: exactly if its state is the best one or the
    recorded actions of this state do not go on to those of the best one.  The first
    expansion of a graph, from any state, returns none exactly if its state is the best. -/
theorem expand_leads (hw : World a (n + n)) :
    (∀ {seed : UInt64} {t : Trace α} {r r' : Run α} {b : α} {xs suffix : List String}
        {p : ExpandParams} {steps : Int}, Pursuit s (forget a) n ⟨.empty seed, t⟩ r →
      Replays (forget a) xs b → xs.length + steps.toNat ≤ n →
      expand s p b steps r = .ok suffix r' →
      ∃ best base, r'.graph.bestNode? = some best ∧
        r'.graph.node? (fingerprint b) = some base ∧
        (suffix ≠ [] → ∃ c, Replays b suffix c ∧ fingerprint c = best.fingerprint) ∧
        (suffix = [] ↔
          best.fingerprint = fingerprint b ∨ ¬ base.actions <+: best.actions)) ∧
    ∀ {seed : UInt64} {t : Trace α} {r' : Run α} {b : α} {i : Nat} {suffix : List String}
        {p : ExpandParams} {steps : Int}, Within a i b → i + steps.toNat ≤ n →
      expand s p b steps ⟨.empty seed, t⟩ = .ok suffix r' →
      ∃ best, r'.graph.bestNode? = some best ∧
        (suffix = [] ↔ best.fingerprint = fingerprint b) := by
  constructor
  · intro seed t r r' b xs suffix p steps h hb hn hx
    have hroot : World (forget a) (n + n) := hw.forgotten.1
    have hroot' : World (forget a) n := hroot.sub .start (by omega : 0 + n ≤ n + n)
    obtain ⟨hg, hstems⟩ := pursuit_stems hroot' h
    obtain ⟨hk, rfl, hreach⟩ := remaining_of_expand hx
    obtain ⟨hg', hstems'⟩ := (expand_stems hroot' hg hstems hb (by omega)).ok hx
    exact remaining_leads hroot hg' hstems' hb (by omega) hk
  · intro seed t r' b i suffix p steps hb hn hx
    have hroot : World b (steps.toNat + steps.toNat) := hw.sub hb (by omega)
    have hroot' : World b steps.toNat := hroot.sub .start (by omega : 0 + _ ≤ _)
    have hself : Replays b [] b := replays_nil.2 rfl
    obtain ⟨hk, rfl, hreach⟩ := remaining_of_expand hx
    obtain ⟨hg, hstems⟩ := (expand_stems hroot' (Graph.wired_empty seed) (stems_empty seed) hself
      (by rw [hreach, List.length_nil, Nat.zero_add])).ok hx
    obtain ⟨best, base, hbest, hbase, -, hnil⟩ :=
      remaining_leads hroot hg hstems hself (Nat.zero_le _) hk
    refine ⟨best, hbest, hnil.trans (or_iff_left_of_imp fun hno => absurd ?_ hno)⟩
    -- nothing shorter than its own actions leads to the state, and all others go on from them
    obtain ⟨ys, _, hys, -⟩ := hstems hbase
    obtain ⟨zs, _, hzs, -⟩ := hstems (hg.node?_best hbest).2
    obtain ⟨m, hm, hle⟩ := hk
    rw [Option.some.inj (hm.symm.trans hbase), hys, List.length_append] at hle
    obtain rfl := List.length_eq_zero_iff.1 (by omega : ys.length = 0)
    rw [hys, hzs, List.append_nil]
    exact List.prefix_append _ _

/-- The hill is expanded first, and then the start, which is no higher. -/
theorem expand_leads_detour :
    let s : Setting DetourEvaluator := ⟨⟨⟩, ⟨id, 0⟩⟩
    let p : ExpandParams := ⟨2, .loopNest, true, 0, none⟩
    let r : Run Detour := ⟨.empty 0, .empty⟩
    let hill : Detour := ⟨.hill, ["far"]⟩
    (∃ r' best, expand s p hill 0 r = .ok [] r' ∧ r'.graph.bestNode? = some best ∧
      best.fingerprint = fingerprint hill) ∧
      ∃ r' best c, expand s p Detour.start 0 ((expand s p hill 0).leaves r) = .ok ["far"] r' ∧
        r'.graph.bestNode? = some best ∧ Replays Detour.start ["far"] c ∧
        fingerprint c = best.fingerprint := by
  intro s p r hill
  have hhill : Moves Detour.start "far" hill := rfl
  obtain ⟨hlater, hfirst⟩ := expand_leads (s := s) (n := 1) (Detour.world (n := 2))
  have hanswers : returned? (expand s p hill 0 r) = some [] ∧
      returned? (expand s p Detour.start 0 ((expand s p hill 0).leaves r)) = some ["far"] := by
    decide +kernel
  obtain ⟨r₁, h₁⟩ := returned?_eq_some hanswers.1
  obtain ⟨r₂, h₂⟩ := returned?_eq_some hanswers.2
  constructor
  · obtain ⟨best, hbest, hnil⟩ := hfirst (.move (.start (n := 0)) hhill) (by decide) h₁
    exact ⟨r₁, best, h₁, hbest, hnil.1 rfl⟩
  · have hway : Replays Detour.start ["far"] hill :=
      replays_cons.2 ⟨hill, hhill, replays_nil.2 rfl⟩
    obtain ⟨best, -, hbest, -, hleads, -⟩ := hlater (.next p 0 .none hway (by decide))
      (replays_nil.2 rfl) (by decide) h₂
    obtain ⟨c, hc, hfp⟩ := hleads (by simp)
    exact ⟨r₂, best, c, h₂, hbest, hc, hfp⟩

end ScheduleSearch

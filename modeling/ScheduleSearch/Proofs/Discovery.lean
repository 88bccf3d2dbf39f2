/-
  How the best path rises.

  The best state is the first one to be scored so high.  But actions that are recorded
  for it, or for a state before it, may be replaced by fewer later on, and these may lead
  through a state that was scored after it, and as high.

  * `Led`: the entry that first scored the best state splits the log, with lower scores
    before it and none higher after it.  Exploring keeps this (`explore_led`), so it
    holds after an expansion (`expand_led`);
  * `Grown.before_end`: the states on a chain before its end are known along fewer
    actions than the end;
  * **`bestPath_rises`**: so the best path ends strictly above all that was scored before
    its end was;
  * `bestPath_level`: it does not end strictly above all that it passes.
-/
import ScheduleSearch.Proofs.DetourWorld
import ScheduleSearch.Proofs.Extraction
import ScheduleSearch.Proofs.UpDownWorld

namespace ScheduleSearch

open Agent SearchM

variable {α ε : Type} [Agent α] [Evaluator ε α] {s : Setting ε} {p : ExpandParams} {ev : ε}
  {root a b : α} {n : Nat} {g : Graph} {r r' : Run α} {new before pre post : List (Scored α)}
  {e e' : Scored α} {fp : Fingerprint} {x y top : Float} {actions xs : List String}

/-! ## The log of an expansion -/

omit [Agent α] in
theorem Answered.unique (h : Answered ev e x) (h' : Answered ev e y) : x = y :=
  Except.ok.inj (h.answer_eq.symm.trans h'.answer_eq)

/-- The node of a state that was scored has its score. -/
theorem Logs.score_eq (hst : SteadyScores ev root n) (hw : World root n)
    (h : Logs ev root n new g) (hb : Within root n b) (hx : Scores ev b x) {m : Node}
    (hm : g.node? (fingerprint b) = some m) : m.score = x := by
  obtain ⟨e, he, hfp, hans⟩ := h.scored hm
  have hwithin := (h.known e he).1
  exact hst.unique hb (hst.same hwithin hb (hw.distinct hwithin hb hfp) hans.scores) hx

/-- The log around the first entry `e` of a state with the score `top`. -/
structure Leads (ev : ε) (fp : Fingerprint) (top : Float) (pre : List (Scored α)) (e : Scored α)
    (post : List (Scored α)) : Prop where
  state_eq : fingerprint e.state = fp
  answered : Answered ev e top
  before {e' : Scored α} : e' ∈ pre → ∃ x, Answered ev e' x ∧ x < top
  after {e' : Scored α} : e' ∈ post → ∃ x, Answered ev e' x ∧ x ≤ top

/-- The entry that first scored the best state leads the log. -/
def Led (ev : ε) (new : List (Scored α)) (g : Graph) : Prop :=
  match g.bestNode? with
  | none => new = []
  | some best => ∃ pre e post, new = pre ++ e :: post ∧
      Leads ev best.fingerprint best.score pre e post

/-- No score is higher than that of the leading entry. -/
theorem Leads.le (h : Leads ev fp top pre e post) (he : e' ∈ pre ++ e :: post)
    (hx : Answered ev e' x) : x ≤ top := by
  have htop := FloatOrder.not_isNaN h.answered.finite
  have hn := FloatOrder.not_isNaN hx.finite
  rcases List.mem_append.1 he with he | he
  · obtain ⟨y, hy, hlt⟩ := h.before he
    rw [hx.unique hy] at hn ⊢
    exact FloatOrder.le_of_lt hn htop hlt
  rcases List.mem_cons.1 he with rfl | he
  · rw [hx.unique h.answered]
    exact FloatOrder.refl htop
  · obtain ⟨y, hy, hle⟩ := h.after he
    rwa [hx.unique hy]

theorem Leads.push (h : Leads ev fp top pre e post) (hx : Answered ev e' x) (hle : x ≤ top) :
    Leads ev fp top pre e (post ++ [e']) :=
  { h with
    after := fun he => by
      rcases List.mem_append.1 he with he | he
      · exact h.after he
      · exact List.mem_singleton.1 he ▸ ⟨x, hx, hle⟩ }

/-- A higher score leads the log as soon as it is there. -/
theorem Leads.overtaken (h : Leads ev fp top pre e post) (hx : Answered ev e' x) (hlt : top < x) :
    Leads ev (fingerprint e'.state) x (pre ++ e :: post) e' [] where
  state_eq := rfl
  answered := hx
  before {e₀} he := by
    have hy : ∃ y, Answered ev e₀ y := by
      rcases List.mem_append.1 he with he | he
      · exact (h.before he).imp fun _ => And.left
      rcases List.mem_cons.1 he with rfl | he
      · exact ⟨_, h.answered⟩
      · exact (h.after he).imp fun _ => And.left
    obtain ⟨y, hy⟩ := hy
    exact ⟨y, hy, FloatOrder.lt_of_le_of_lt (FloatOrder.not_isNaN hx.finite) (h.le he hy) hlt⟩
  after he := by cases he

/-- Recording a state with the score that was logged last keeps the log led. -/
theorem Led.record (hw : g.Wired) (hc : Credits ev new g) (h : Led ev new g)
    (hx : Answered ev e x) (hsame : ∀ m, g.node? (fingerprint e.state) = some m → m.score = x)
    (time : Float) :
    Led ev (new ++ [e]) (g.record (fingerprint e.state) actions x time).2 := by
  unfold Led at h ⊢
  rcases g.record_cases (fingerprint e.state) actions x time with ⟨-, hg⟩ | ⟨⟨m, hm, -⟩, hg⟩ <;>
    rw [hg]
  · rw [Graph.bestNode?_store hw]
    cases hbest : g.bestNode? with
    | none =>
      rw [hbest] at h
      obtain rfl := h
      exact ⟨[], e, [], rfl, rfl, hx, by simp, by simp⟩
    | some best =>
      rw [hbest] at h
      obtain ⟨pre, e₀, post, rfl, hl⟩ := h
      by_cases hlt : best.score < x
      · simp only [hlt, true_or, if_true]
        exact ⟨_, e, [], rfl, hl.overtaken hx hlt⟩
      have hle : x ≤ best.score := (FloatOrder.not_lt_iff
        (FloatOrder.not_isNaN hl.answered.finite) (FloatOrder.not_isNaN hx.finite)).1 hlt
      have hlog : pre ++ e₀ :: post ++ [e] = pre ++ e₀ :: (post ++ [e]) := by simp
      by_cases hfp : best.fingerprint = fingerprint e.state
      · -- the best state is stored again, with the score that it has
        obtain rfl := hsame best (hfp ▸ (hw.node?_best hbest).2)
        simp only [hfp, or_true, if_true]
        exact ⟨pre, e₀, _, hlog, hfp ▸ hl.push hx hle⟩
      · simp only [hlt, hfp, or_self, if_false]
        exact ⟨pre, e₀, _, hlog, hl.push hx hle⟩
  · -- the state is known, with a score that is no higher than the best
    obtain ⟨best, hbest⟩ := hw.exists_best hm
    rw [hbest] at h ⊢
    obtain ⟨pre, e₀, post, rfl, hl⟩ := h
    obtain ⟨e', he', -, hx'⟩ := hc hm
    have hle := hl.le he' hx'
    rw [hsame m hm] at hle
    exact ⟨pre, e₀, post ++ [e], by simp, hl.push hx hle⟩

/-- A visit keeps the log led. -/
theorem Led.visited (hst : SteadyScores ev root n) (hw : World root n) (hwired : r.graph.Wired)
    (hlogs : Logs ev root n new r.graph) (h : Led ev new r.graph) (hb : Within root n b)
    (hv : Visited ev b r r') :
    ∃ e, r'.trace.scored = r.trace.scored.push e ∧ Logs ev root n (new ++ [e]) r'.graph ∧
      Led ev (new ++ [e]) r'.graph := by
  obtain ⟨x, hx, hpush, hlogs'⟩ := hlogs.visited hb hv
  obtain ⟨x', time, times, σ, -, -, hpush', hg, -⟩ := hv
  obtain ⟨hentry, -⟩ := Array.push_eq_push.1 (hpush'.symm.trans hpush)
  obtain rfl : x' = x := Except.ok.inj (congrArg Scored.answer hentry)
  refine ⟨_, hpush, hlogs', ?_⟩
  rw [hg]
  exact Led.record (e := ⟨b, .loopNest, .ok x'⟩) (hwired.like times σ) hlogs.scored h hx
    (fun m hm => hlogs.score_eq hst hw hb hx.scores hm) time

/-- Exploring keeps the log led. -/
theorem explore_led (hst : SteadyScores s.evaluator root n) (hw : World root n) {depth i : Nat}
    (hb : Within root i b) (hi : i + depth ≤ n) (hwired : r.graph.Wired)
    (h : ∃ new, r.trace.scored.toList = before ++ new ∧ Logs s.evaluator root n new r.graph ∧
      Led s.evaluator new r.graph) :
    Ends (explore s p depth b) r
      (fun _ r' => ∃ new, r'.trace.scored.toList = before ++ new ∧
        Logs s.evaluator root n new r'.graph ∧ Led s.evaluator new r'.graph)
      (fun _ _ => True) := by
  refine (explore_keeps (P := fun k c => ∃ i, Within root i c ∧ i + k ≤ n)
    (I := fun r => r.graph.Wired ∧ ∃ new, r.trace.scored.toList = before ++ new ∧
      Logs s.evaluator root n new r.graph ∧ Led s.evaluator new r.graph) ?_ (fun _ => trivial) ?_
    ?_ depth ⟨i, hb, hi⟩ ⟨hwired, h⟩).imp_ok fun _ _ h => h.2
  · rintro r r' ⟨hwired, new, hnew, hlogs, hled⟩ hq
    obtain ⟨σ, hg⟩ := hq.graph
    rw [hg, hq.scored]
    exact ⟨hwired.like _ σ, new, hnew, hlogs.congr rfl, hled⟩
  · rintro k c r ⟨i, hc, hi⟩ ⟨hwired, new, hnew, hlogs, hled⟩
    refine (visit_ends s p c).imp (fun _ r' hv => ⟨hv.wired hwired, ?_⟩) fun _ _ _ => trivial
    obtain ⟨e, hpush, hlogs', hled'⟩ := hled.visited hst hw hwired hlogs (hc.mono (by omega)) hv
    exact ⟨_, by rw [hpush, Array.toList_push, hnew, List.append_assoc], hlogs', hled'⟩
  · rintro k c x d r ⟨i, hc, hi⟩ hm ⟨hwired, new, hnew, hlogs, hled⟩
    have hwired' := Graph.wired_recordEdge hwired ⟨fingerprint c, fingerprint d, x⟩
    obtain ⟨_, _, _, _, hg⟩ := r.graph.recordEdge_nodes ⟨fingerprint c, fingerprint d, x⟩
    rw [hg] at hwired' ⊢
    exact ⟨⟨i + 1, hc.move hm, by omega⟩, hwired', new, hnew, hlogs.congr rfl, hled⟩

/-- An expansion of a fresh graph leaves a graph as it should be, and a log that is led. -/
theorem expand_led {steps : Int} {seed : UInt64} {t : Trace α} {suffix : List String}
    (hst : SteadyScores s.evaluator a (reach steps)) (hw : World a (reach steps))
    (ha : history a = []) (h : expand s p a steps ⟨.empty seed, t⟩ = .ok suffix r') :
    Covered s.evaluator a (reach steps) a (.empty seed) r'.graph ∧
      ∃ new, r'.trace.scored.toList = t.scored.toList ++ new ∧
        Logs s.evaluator a (reach steps) new r'.graph ∧ Led s.evaluator new r'.graph := by
  have hcovers := explore_covers (s := s) (p := p) (r := ⟨.empty seed, t⟩) hw (reach steps)
    (grown_empty seed) (ready_root ha) (by rw [ha, List.length_nil, Nat.zero_add])
  have hled := explore_led (s := s) (p := p) (r := ⟨.empty seed, t⟩) hst hw .start
    (Nat.zero_add (reach steps)).le (Graph.wired_empty seed)
    ⟨[], (List.append_nil t.scored.toList).symm, ⟨by simp, fun _ _ hm => by cases hm⟩, rfl⟩
  exact (expand_rule (E := fun _ _ => True) (fun _ => trivial)
    ((hcovers.and hled).imp_error fun _ _ _ => trivial)).ok h

/-! ## Before the end of a chain -/

/-- A state that a chain passes before its end has a node with fewer actions. -/
theorem Grown.before_end (hw : World root n) (h : Grown ev root n g) {m : Node} {ns : List Node}
    (hc : g.Chain (m :: ns) xs) {i : Nat} (hi : i < xs.length)
    (hx : ((m :: ns).map (·.score)).reverse[i]? = some x) :
    ∃ k b, Replays root (xs.reverse.take i) b ∧ g.node? (fingerprint b) = some k ∧ k.score = x ∧
      k.actions.length < m.actions.length := by
  induction xs generalizing m ns with
  | nil => cases hi
  | cons y ys ih =>
    cases hc with
    | @step _ k ks _ _ hm _ ht hlt hc =>
      have hlen : ((k :: ks).map (·.score)).reverse.length = ys.length + 1 := by
        rw [List.length_reverse, List.length_map, hc.length_eq]
      rw [List.length_cons] at hi
      rw [List.map_cons, List.reverse_cons, List.getElem?_append_left (by omega)] at hx
      rw [List.reverse_cons, List.take_append_of_le_length (by rw [List.length_reverse]; omega)]
      rcases Nat.lt_or_ge i ys.length with hi' | hi'
      · obtain ⟨k', b, hb, hk', hscore, hfewer⟩ := ih hc hi' hx
        exact ⟨k', b, hb, hk', hscore, hfewer.trans hlt⟩
      · -- the state right before the end
        obtain rfl : i = ys.length := by omega
        obtain ⟨b, hb, hfp⟩ := h.replays_chain hw hc
        rw [List.take_of_length_le (by rw [List.length_reverse])]
        have hlast : ((k :: ks).map (·.score)).reverse.getLast? = some x := by
          rw [List.getLast?_eq_getElem?, hlen, Nat.add_sub_cancel, hx]
        rw [List.getLast?_reverse, List.map_cons, List.head?_cons] at hlast
        exact ⟨k, b, hb, hfp ▸ hc.mem_node List.mem_cons_self, Option.some.inj hlast, hlt⟩

/-! ## The best path -/

/-- **The best path rises to its end**: a fresh expansion has a best path, whose end
    was first scored by an entry `e`.  All that was scored before `e` is lower, no reward
    on the way is higher, and one that is as high belongs to a state that was scored only
    after `e`. -/
theorem bestPath_rises {steps : Int} {seed : UInt64} {t : Trace α} {suffix : List String}
    (hw : World a (reach steps)) (ha : history a = [])
    (hst : SteadyScores s.evaluator a (reach steps))
    (h : expand s p a steps ⟨.empty seed, t⟩ = .ok suffix r') :
    ∃ table g pre e post last, r'.graph.bestPath = .ok table g ∧
      r'.trace.scored.toList = t.scored.toList ++ (pre ++ e :: post) ∧
      table.finalReward? = some last ∧ Answered s.evaluator e last ∧
      (∃ b, Replays a table.path b ∧ fingerprint b = fingerprint e.state) ∧
      (∀ e' ∈ pre, ∃ x, Answered s.evaluator e' x ∧ x < last) ∧
      ∀ i x, i + 1 < table.rewards.length → table.rewards[i]? = some x →
        ∃ b, Replays a (table.path.take i) b ∧ fingerprint b ≠ fingerprint e.state ∧ x ≤ last ∧
          ((∃ e' ∈ pre, fingerprint e'.state = fingerprint b) → x < last) := by
  obtain ⟨hcov, new, hnew, hlogs, hled⟩ := expand_led hst hw ha h
  have hg := hcov.grown
  obtain ⟨m, hm, -⟩ := hcov.trail _ a List.prefix_rfl (ready_root ha (g := r'.graph)).replays
  obtain ⟨best, ns, xs, g, hbest, hc, hpath, -⟩ :=
    Graph.bestPath_ok hg.wired (fun _ _ hm => (hg.node hm).entered) hm
  unfold Led at hled
  rw [hbest] at hled
  obtain ⟨pre, e, post, rfl, hl⟩ := hled
  have hend : ∃ b, Replays a xs.reverse b ∧ fingerprint b = fingerprint e.state := by
    rw [hl.state_eq]
    exact hg.replays_chain hw hc
  refine ⟨_, g, pre, e, post, best.score, hpath, hnew, by simp [Table.finalReward?], hl.answered,
    hend, fun e' => hl.before, fun i x hi hx => ?_⟩
  have hi : i < xs.length := by
    rw [List.length_reverse, List.length_map, hc.length_eq] at hi
    omega
  obtain ⟨k, b, hb, hk, hscore, hfewer⟩ := hg.before_end hw hc hi hx
  obtain ⟨e', he', -, hans⟩ := hlogs.scored hk
  rw [hscore] at hans
  refine ⟨b, hb, fun hfp => ?_, hl.le he' hans, ?_⟩
  · -- the end has more actions than the states before it
    rw [hfp, hl.state_eq, hc.mem_node List.mem_cons_self] at hk
    cases hk
    exact absurd hfewer (lt_irrefl _)
  · rintro ⟨e₀, he₀, hfp₀⟩
    obtain ⟨y, hy, hlt⟩ := hl.before he₀
    have hwithin := (hlogs.known e₀ (List.mem_append_left _ he₀)).1
    have hsame := hlogs.score_eq hst hw hwithin hy.scores (hfp₀ ▸ hk)
    rwa [← hscore, hsame]

/-- Two steps of the up/down world, in any order. -/
theorem bestPath_rises_upDown :
    ∃ suffix r' table g last, expand ⟨UpDownEvaluator.mk, ⟨id, 0⟩⟩
        ⟨2, .loopNest, false, 0, none⟩ UpDown.start (2 : Nat) ⟨.empty 0, .empty⟩ = .ok suffix r' ∧
      r'.graph.bestPath = .ok table g ∧ table.finalReward? = some last ∧
      ∀ i x, i + 1 < table.rewards.length → table.rewards[i]? = some x → x ≤ last := by
  obtain ⟨suffix, r', h⟩ := UpDown.expand_ok (s := ⟨UpDownEvaluator.mk, ⟨id, 0⟩⟩)
    (p := ⟨2, .loopNest, false, 0, none⟩) (t := .empty) le_rfl
  have hreach : reach (2 : Nat) = 2 := by decide
  obtain ⟨table, g, pre, e, post, last, hpath, -, hlast, -, -, -, hrewards⟩ := bestPath_rises
    (by rw [hreach]; exact UpDown.world) rfl (by rw [hreach]; exact UpDown.steadyScores) h
  refine ⟨suffix, r', table, g, last, h, hpath, hlast, fun i x hi hx => ?_⟩
  obtain ⟨b, -, -, hle, -⟩ := hrewards i x hi hx
  exact hle

/-- The peak is found from the ridge, and then along the shore, which is as high. -/
theorem bestPath_level :
    history Detour.start = [] ∧ (∀ n, World Detour.start n ∧
      SteadyScores DetourEvaluator.mk Detour.start n ∧
      Accepting DetourEvaluator.mk Detour.start n) ∧
      ∃ suffix r' table g, expand ⟨DetourEvaluator.mk, ⟨id, 0⟩⟩ ⟨2, .loopNest, true, 0, none⟩
          Detour.start 3 ⟨.empty 0, .empty⟩ = .ok suffix r' ∧
        r'.graph.bestPath = .ok table g ∧ ∃ i x last, i + 1 < table.rewards.length ∧
          table.rewards[i]? = some x ∧ table.finalReward? = some last ∧ ¬ x < last := by
  refine ⟨rfl, fun n => ⟨Detour.world, Detour.steadyScores, Detour.accepting⟩, ?_⟩
  have heval : (match expand ⟨DetourEvaluator.mk, ⟨id, 0⟩⟩ ⟨2, .loopNest, true, 0, none⟩
      Detour.start 3 ⟨.empty 0, .empty⟩ with
    | .error .. => false
    | .ok _ r' => match r'.graph.bestPath with
      | .error .. => false
      | .ok table _ => decide (table.rewards.length = 3 ∧ ∃ x ∈ table.rewards[1]?,
          ∃ last ∈ table.finalReward?, ¬ x < last)) = true := by
    decide +kernel
  cases hx : expand ⟨DetourEvaluator.mk, ⟨id, 0⟩⟩ ⟨2, .loopNest, true, 0, none⟩ Detour.start 3
      ⟨.empty 0, .empty⟩ with
  | error => rw [hx] at heval; cases heval
  | ok suffix r' =>
    rw [hx] at heval
    dsimp only at heval
    cases hpath : r'.graph.bestPath with
    | error => rw [hpath] at heval; cases heval
    | ok table g =>
      rw [hpath] at heval
      obtain ⟨hlen, x, hx, last, hlast, hle⟩ := of_decide_eq_true heval
      exact ⟨suffix, r', table, g, rfl, hpath, 1, x, last, by omega, hx, hlast, hle⟩

end ScheduleSearch

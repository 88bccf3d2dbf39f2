/-
  Several expansions of one graph.

  A graph may be expanded again and again, each time from the root or from a state that
  it knows (`Begins`), with other settings and another depth.  An expansion may fail
  part-way: the evaluator fails or returns no finite score, or an action is rejected.
  What was recorded until then stays, and the next expansion goes on with it
  (`SearchM.leaves`).

  * `Expansions` are the runs that such a series leaves;
  * `expand_grown`, `expand_credits`, `expand_known`: what an expansion keeps, whether or
    not it succeeds;
  * `expansions_grown`: the invariant of the graph survives every expansion, and every
    node is credited with a score that the evaluator returned;
  * **`expansions_valid`**: so recorded actions replay to their states, and there is
    always a best path.
-/
import ScheduleSearch.Proofs.Growth
import ScheduleSearch.Proofs.UpDownWorld

namespace ScheduleSearch

open Agent SearchM

/-- The run that a computation leaves, whether or not it succeeds. -/
def SearchM.leaves {α β : Type} (x : SearchM α β) (r : Run α) : Run α :=
  match x r with
  | .ok _ r' | .error _ r' => r'

theorem SearchM.Ends.leaves {α β : Type} {x : SearchM α β} {r : Run α} {I : Run α → Prop}
    (h : Ends x r (fun _ r' => I r') fun _ r' => I r') : I (x.leaves r) := by
  unfold SearchM.leaves
  rcases h.result with ⟨v, r', hx, hI⟩ | ⟨e, r', hx, hI⟩
  · rwa [hx]
  · rwa [hx]

variable {α ε : Type} [Agent α] [Evaluator ε α] {s : Setting ε} {root a b : α} {n k : Nat}
  {before : List (Scored α)} {r r' : Run α}

/-- An expansion may begin at the root, and at a known state that its recorded actions
    lead to. -/
inductive Begins (root : α) (g : Graph) : α → Prop
  | root : Begins root g root
  | known {fp : Fingerprint} {m : Node} {b : α} : g.node? fp = some m →
      Replays root m.actions b → Begins root g b

/-- The runs that several expansions leave one after the other, with the depths that
    they go to in all.  Where each may begin depends on the graph. -/
inductive Expansions (s : Setting ε) (begins : Graph → α → Prop) (r : Run α) : Nat → Run α → Prop
  | none : Expansions s begins r 0 r
  | next {n : Nat} {r' : Run α} {b : α} (p : ExpandParams) (steps : Int) :
      Expansions s begins r n r' → begins r'.graph b →
      Expansions s begins r (n + reach steps) ((expand s p b steps).leaves r')

/-! ## One expansion -/

/-- A state where an expansion may begin is ready, and no deeper than the graph. -/
theorem Begins.ready {ev : ε} {g : Graph} (hw : World root n) (hr : history root = [])
    (h : Grown ev root n g) (hb : Begins root g b) : Ready root g b ∧ (history b).length ≤ n := by
  cases hb with
  | root =>
    rw [hr]
    exact ⟨ready_root hr, Nat.zero_le n⟩
  | known hm hb =>
    have hrec := h.node hm
    have hl := hrec.length
    have hh := hw.history_replays (.start (n := 0)) hb (by omega)
    rw [hr, List.nil_append] at hh
    rw [hh]
    exact ⟨ready_of_trail (by rwa [hh]) (by rw [hh]; exact hrec.trail), hl⟩

/-- **Whether or not it succeeds**, an expansion keeps the invariant of the graph. -/
theorem expand_grown {p : ExpandParams} {steps : Int} (hw : World root (n + reach steps))
    (h : Grown s.evaluator root n r.graph) (hb : Ready root r.graph b)
    (hn : (history b).length ≤ n) :
    Ends (expand s p b steps) r
      (fun _ r' => Grown s.evaluator root (n + reach steps) r'.graph)
      (fun _ r' => Grown s.evaluator root (n + reach steps) r'.graph) := by
  have h' := h.mono (Nat.le_add_right n (reach steps))
  exact expand_rule (fun _ => h') ((explore_covers hw (reach steps) h' hb (by omega)).imp
    (fun _ _ h => h.grown) fun _ _ h => h.1)

/-- Whether or not it succeeds, an expansion credits every node with a score. -/
theorem expand_credits {p : ExpandParams} {steps : Int}
    (h : ∃ new, r.trace.scored.toList = before ++ new ∧ Credits s.evaluator new r.graph) :
    Ends (expand s p b steps) r
      (fun _ r' => ∃ new, r'.trace.scored.toList = before ++ new ∧
        Credits s.evaluator new r'.graph)
      (fun _ r' => ∃ new, r'.trace.scored.toList = before ++ new ∧
        Credits s.evaluator new r'.graph) := by
  refine expand_keeps (P := fun _ _ => True) ?_ ?_ ?_ trivial h
  · rintro r r' ⟨new, hnew, hc⟩ hq
    obtain ⟨σ, hg⟩ := hq.graph
    exact ⟨new, by rw [hq.scored, hnew], by rw [hg]; exact hc⟩
  · rintro k c r - ⟨new, hnew, hc⟩
    refine (visit_ends s p c).imp (fun _ r' hv => ?_) ?_
    · obtain ⟨x, -, hpush, hc'⟩ := hc.visited hv
      exact ⟨_, by rw [hpush, Array.toList_push, hnew, List.append_assoc], hc'⟩
    · -- the entry of a failed visit credits no node
      rintro e r' ⟨⟨σ, hg⟩, ⟨answer, hpush⟩, -⟩
      refine ⟨new ++ [⟨c, .loopNest, answer⟩], ?_, fun fp m hm => ?_⟩
      · rw [hpush, Array.toList_push, hnew, List.append_assoc]
      · rw [hg] at hm
        obtain ⟨e, he, hfp, hx⟩ := hc hm
        exact ⟨e, List.mem_append_left _ he, hfp, hx⟩
  · rintro k c x d r - - ⟨new, hnew, hc⟩
    obtain ⟨_, _, _, _, hg⟩ := r.graph.recordEdge_nodes ⟨fingerprint c, fingerprint d, x⟩
    exact ⟨trivial, new, hnew, by rw [hg]; exact hc⟩

/-- Whether or not it succeeds, an expansion forgets nothing. -/
theorem expand_known {p : ExpandParams} {steps : Int} {g : Graph} (h : g.Grows r.graph) :
    Ends (expand s p b steps) r (fun _ r' => g.Grows r'.graph) (fun _ r' => g.Grows r'.graph) := by
  refine expand_keeps (P := fun _ _ => True) ?_ ?_ ?_ trivial h
  · exact fun h hq => h.trans hq.grows
  · rintro k c r - h
    refine (visit_ends s p c).imp (fun _ r' hv => h.trans hv.grows) ?_
    rintro e r' ⟨⟨σ, hg⟩, -⟩
    exact h.trans ⟨by rw [hg]; exact id, by rw [hg]; exact id⟩
  · exact fun {k c x d r} _ _ h => ⟨trivial, h.trans (r.graph.grows_recordEdge _)⟩

/-! ## Several expansions -/

/-- **The invariant** of the graph survives every series of expansions from the root and
    from known states, and every node is credited with a score. -/
theorem expansions_grown {seed : UInt64} {t : Trace α} (hw : World root n)
    (hr : history root = []) (h : Expansions s (Begins root) ⟨.empty seed, t⟩ n r) :
    Grown s.evaluator root n r.graph ∧
      ∃ new, r.trace.scored.toList = t.scored.toList ++ new ∧
        Credits s.evaluator new r.graph := by
  induction h with
  | none =>
    refine ⟨grown_empty seed, [], (List.append_nil _).symm, fun fp m hm => ?_⟩
    cases hm
  | @next n r b p steps _ hb ih =>
    obtain ⟨hgrown, hcredits⟩ := ih (hw.sub .start (by omega : 0 + n ≤ n + reach steps))
    have hw' := hw.sub .start (by omega : 0 + n ≤ n + reach steps)
    obtain ⟨hready, hl⟩ := hb.ready hw' hr hgrown
    exact ⟨(expand_grown hw hgrown hready hl).leaves, (expand_credits hcredits).leaves⟩

/-- **Recorded actions stay valid**, whichever expansions fail: replayed from the root
    they lead to the state of their node, whose score is a finite one that the evaluator
    returned for this state; and as soon as there is a node there is a best path. -/
theorem expansions_valid {seed : UInt64} {t : Trace α} (hw : World a n)
    (h : Expansions s (Begins (forget a)) ⟨.empty seed, t⟩ n r) :
    (∀ fp m, r.graph.node? fp = some m →
      (∃ b, Replays (forget a) m.actions b ∧ fingerprint b = fp) ∧ m.score.isFinite ∧
        ∃ new e, r.trace.scored.toList = t.scored.toList ++ new ∧ e ∈ new ∧
          fingerprint e.state = fp ∧ Answered s.evaluator e m.score) ∧
      ((∃ fp m, r.graph.node? fp = some m) → ∃ table g, r.graph.bestPath = .ok table g) := by
  obtain ⟨hroot, hr⟩ := hw.forgotten
  obtain ⟨hgrown, new, hnew, hcredits⟩ := expansions_grown hroot hr h
  constructor
  · intro fp m hm
    obtain ⟨b, hb, hfp, -⟩ := (hgrown.node hm).state
    obtain ⟨e, he, hefp, hx⟩ := hcredits hm
    exact ⟨⟨b, hb, hfp⟩, (hgrown.node hm).finite, new, e, hnew, he, hefp, hx⟩
  · rintro ⟨fp, m, hm⟩
    obtain ⟨best, ns, xs, g, -, -, hpath, -⟩ :=
      Graph.bestPath_ok hgrown.wired (fun _ _ hm => (hgrown.node hm).entered) hm
    exact ⟨_, g, hpath⟩

/-! ## A series with a failure -/

/-- An evaluator of the up/down world that fails at one turn. -/
structure Faltering where
  turn : Nat

instance : Evaluator Faltering UpDown where
  score ev turn a _ :=
    if turn = ev.turn then .error (.backend "timed out") else .ok a.score.toFloat
  rank _ _ _ _ := .ok [⟨"up", 1⟩, ⟨"down", 0⟩]

/-- An expansion that fails at its third state, and one from the second state that goes
    on with its graph. -/
theorem expansions_valid_faltering :
    let s : Setting Faltering := ⟨⟨2⟩, ⟨id, 0⟩⟩
    let p : ExpandParams := ⟨2, .loopNest, true, 0, none⟩
    let r : Run UpDown := ⟨.empty 0, .empty⟩
    let r₁ := (expand s p UpDown.start 1).leaves r
    let r₂ := (expand s p ⟨1, ["up"]⟩ 1).leaves r₁
    (∃ e, expand s p UpDown.start 1 r = .error e r₁) ∧
      (∀ fp m, r₂.graph.node? fp = some m → ∃ b, Replays UpDown.start m.actions b ∧
        fingerprint b = fp) ∧
      ∃ table g, r₂.graph.bestPath = .ok table g := by
  intro s p r r₁ r₂
  have hreach : 0 + reach 1 + reach 1 = 2 := by decide
  obtain ⟨m, hm, hact⟩ : ∃ m ∈ r₁.graph.node? (fingerprint (⟨1, ["up"]⟩ : UpDown)),
      m.actions = ["up"] := by
    decide +kernel
  have hknown : Begins UpDown.start r₁.graph ⟨1, ["up"]⟩ := .known hm (by rw [hact]; rfl)
  have hseries : Expansions s (Begins UpDown.start) r (0 + reach 1 + reach 1) r₂ :=
    .next p 1 (.next p 1 .none .root) hknown
  obtain ⟨hnodes, hpath⟩ := expansions_valid (a := UpDown.start) (by rw [hreach]; exact UpDown.world)
    hseries
  obtain ⟨m', hm', -⟩ : r₂.graph.Knows _ m.actions.length :=
    ((expand_known (.refl r₁.graph)).leaves : r₁.graph.Grows r₂.graph).knows ⟨m, hm, le_rfl⟩
  have hfails : (expand s p UpDown.start 1 r) matches .error .. := by
    decide +kernel
  refine ⟨?_, fun fp m hm => (hnodes fp m hm).1, hpath ⟨_, m', hm'⟩⟩
  show ∃ e, expand s p UpDown.start 1 r = .error e ((expand s p UpDown.start 1).leaves r)
  unfold SearchM.leaves
  cases hx : expand s p UpDown.start 1 r with
  | ok xs r' => rw [hx] at hfails; cases hfails
  | error e r' => exact ⟨e, rfl⟩

end ScheduleSearch

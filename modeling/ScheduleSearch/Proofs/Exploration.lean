/-
  What exploration finds.

  `Candidate` are the actions that are followed from a state, as a relation, and
  `Walk` are the ways along them.  Exploration goes along every such way, whatever it
  meets again, so what it adds to a graph is known exactly:

  * `Reaches`: the states at the end of a way of at most so many steps, each known
    along as many actions;
  * `Crosses`: the transitions on such ways;
  * `explore_adds`: exploration without a deadline adds these (`Adds`);
  * **`expand_exact`**: on a fresh graph, expansion finds the shortest ways.
-/
import Mathlib.Order.Bounds.Basic
import ScheduleSearch.Proofs.Growth
import ScheduleSearch.Proofs.UpDownWorld

namespace ScheduleSearch

open Agent SearchM

variable {α ε : Type} [Agent α] [Evaluator ε α]

/-! ## Candidates -/

/-- The candidates of a state: the first of its ranking, or all that it lists. -/
def Candidate (ev : ε) (width : Nat) (mode : EvalMode) (ranking : Bool) (b : α) (x : String) :
    Prop :=
  if ranking then
    ∃ turn ranked, Evaluator.rank ev turn b mode = .ok ranked ∧
      x ∈ (ranked.map (·.action)).take width
  else x ∈ available b

/-- What is followed from a state are its candidates: rankings depend on the dump
    alone, and without ranking the width leaves nothing out. -/
structure Settled (ev : ε) (a : α) (n width : Nat) (mode : EvalMode) (ranking : Bool) : Prop where
  ranked {b c : α} {turn turn' : Nat} {l l' : List RankedAction} : ranking → Within a n b →
    Within a n c → dump b = dump c → Evaluator.rank ev turn b mode = .ok l →
    Evaluator.rank ev turn' c mode = .ok l' → l.map (·.action) = l'.map (·.action)
  wide {b : α} : ¬ ranking → Within a n b → (available b).length ≤ width

theorem Settled.chosen {s : Setting ε} {p : ExpandParams} {a b : α} {n turn : Nat}
    {xs : List String} (h : Settled s.evaluator a n p.width p.mode p.ranking)
    (hb : Within a n b) (hc : Chosen s p b turn xs) (x : String) :
    x ∈ xs ↔ Candidate s.evaluator p.width p.mode p.ranking b x := by
  unfold Candidate
  cases hc with
  | @ranked l hr hl =>
    rw [if_pos hr]
    constructor
    · exact fun hx => ⟨turn, l, hl, hx⟩
    · rintro ⟨turn', l', hl', hx⟩
      rwa [h.ranked hr hb hb rfl hl hl']
  | @drawn ys hr hys =>
    rw [if_neg hr, List.take_of_length_le (hys.length_eq.trans_le (h.wide hr hb)), hys.mem_iff]

theorem Settled.sub {ev : ε} {a b : α} {i m n width : Nat} {mode : EvalMode} {ranking : Bool}
    (hb : Within a i b) (hn : i + m ≤ n) (h : Settled ev a n width mode ranking) :
    Settled ev b m width mode ranking where
  ranked hr hc hd := h.ranked hr ((hb.trans hc).mono hn) ((hb.trans hd).mono hn)
  wide hr hc := h.wide hr ((hb.trans hc).mono hn)

/-! ## Ways -/

section
variable {C : α → String → Prop} {b c d : α} {i j k depth : Nat} {x : String} {fp : Fingerprint}
  {t : Transition}

/-- `c` is reached from `b` by so many candidate actions. -/
inductive Walk (C : α → String → Prop) : α → Nat → α → Prop
  | stay {b : α} : Walk C b 0 b
  | go {b c d : α} {x : String} {k : Nat} : C b x → Moves b x c → Walk C c k d → Walk C b (k + 1) d

theorem Walk.within (h : Walk C b k c) (hb : Within d i b) : Within d (i + k) c := by
  induction h generalizing i with
  | stay => exact hb
  | @go _ _ _ _ k _ hm _ ih =>
    have := ih (hb.move hm)
    rwa [Nat.add_assoc, Nat.add_comm 1 k] at this

theorem Walk.append (h : Walk C b j c) (h' : Walk C c k d) : Walk C b (j + k) d := by
  induction h with
  | stay => rwa [Nat.zero_add]
  | @go _ _ _ _ j hc hm _ ih =>
    rw [Nat.add_right_comm]
    exact .go hc hm (ih h')

theorem Walk.concat (h : Walk C b k c) (hc : C c x) (hm : Moves c x d) : Walk C b (k + 1) d :=
  h.append (.go hc hm .stay)

theorem Walk.last (h : Walk C b (k + 1) d) : ∃ c x, Walk C b k c ∧ C c x ∧ Moves c x d := by
  induction k generalizing b with
  | zero =>
    cases h with
    | go hc hm h => cases h; exact ⟨b, _, .stay, hc, hm⟩
  | succ k ih =>
    cases h with
    | go hc hm h =>
      obtain ⟨c, x, h, hx⟩ := ih h
      exact ⟨c, x, .go hc hm h, hx⟩

/-- The state lies at the end of a way, and the actions to there are at most `k`. -/
def Reaches (C : α → String → Prop) (b : α) (depth : Nat) (fp : Fingerprint) (k : Nat) : Prop :=
  ∃ j c, j ≤ depth ∧ Walk C b j c ∧ fingerprint c = fp ∧ (history b).length + j ≤ k

/-- The transition is part of a way. -/
def Crosses (C : α → String → Prop) (b : α) (depth : Nat) (t : Transition) : Prop :=
  ∃ j c x d, j < depth ∧ Walk C b j c ∧ C c x ∧ Moves c x d ∧
    t = ⟨fingerprint c, fingerprint d, x⟩

theorem reaches_zero : Reaches C b 0 fp k ↔ fingerprint b = fp ∧ (history b).length ≤ k := by
  constructor
  · rintro ⟨j, c, hj, hc, hfp, hk⟩
    obtain rfl := Nat.le_zero.1 hj
    cases hc
    exact ⟨hfp, hk⟩
  · rintro ⟨hfp, hk⟩
    exact ⟨0, b, le_rfl, .stay, hfp, hk⟩

theorem not_crosses_zero : ¬ Crosses C b 0 t := by
  rintro ⟨j, c, x, d, hj, -⟩
  cases hj

theorem reaches_succ (hh : ∀ {x c}, Moves b x c → (history c).length = (history b).length + 1) :
    Reaches C b (depth + 1) fp k ↔ fingerprint b = fp ∧ (history b).length ≤ k ∨
      ∃ x c, C b x ∧ Moves b x c ∧ Reaches C c depth fp k := by
  constructor
  · rintro ⟨j, d, hj, hd, hfp, hk⟩
    cases hd with
    | stay => exact .inl ⟨hfp, hk⟩
    | go hc hm hd =>
      have := hh hm
      exact .inr ⟨_, _, hc, hm, _, d, Nat.le_of_succ_le_succ hj, hd, hfp, by omega⟩
  · rintro (⟨hfp, hk⟩ | ⟨x, c, hc, hm, j, d, hj, hd, hfp, hk⟩)
    · exact ⟨0, b, Nat.zero_le _, .stay, hfp, hk⟩
    · have := hh hm
      exact ⟨j + 1, d, Nat.succ_le_succ hj, .go hc hm hd, hfp, by omega⟩

theorem crosses_succ : Crosses C b (depth + 1) t ↔
    ∃ x c, C b x ∧ Moves b x c ∧ (t = ⟨fingerprint b, fingerprint c, x⟩ ∨ Crosses C c depth t) := by
  constructor
  · rintro ⟨j, c, x, d, hj, hc, hx, hd, ht⟩
    cases hc with
    | stay => exact ⟨x, d, hx, hd, .inl ht⟩
    | go hy hm hc => exact ⟨_, _, hy, hm, .inr ⟨_, c, x, d, Nat.lt_of_succ_lt_succ hj, hc, hx, hd, ht⟩⟩
  · rintro ⟨y, e, hy, hm, ht | ⟨j, c, x, d, hj, hc, hx, hd, ht⟩⟩
    · exact ⟨0, b, y, e, Nat.succ_pos _, .stay, hy, hm, ht⟩
    · exact ⟨j + 1, c, x, d, Nat.succ_lt_succ hj, .go hy hm hc, hx, hd, ht⟩

end

/-! ## What exploration adds -/

/-- What a graph comes to know, and what transitions it comes to store. -/
structure Adds (g g' : Graph) (V : Fingerprint → Nat → Prop) (T : Transition → Prop) : Prop where
  wired : g.Wired → g'.Wired
  knows (fp : Fingerprint) (k : Nat) : g'.Knows fp k ↔ g.Knows fp k ∨ V fp k
  transitions (t : Transition) : t ∈ g'.transitions ↔ t ∈ g.transitions ∨ T t

section
variable {g g' g'' : Graph} {V V' : Fingerprint → Nat → Prop} {T T' : Transition → Prop}

theorem Adds.refl (g : Graph) : Adds g g (fun _ _ => False) fun _ => False :=
  ⟨id, fun _ _ => (or_false _).symm.to_iff, fun _ => (or_false _).symm.to_iff⟩

theorem Adds.trans (h : Adds g g' V T) (h' : Adds g' g'' V' T') :
    Adds g g'' (fun fp k => V fp k ∨ V' fp k) fun t => T t ∨ T' t where
  wired := h'.wired ∘ h.wired
  knows fp k := by rw [h'.knows, h.knows, or_assoc]
  transitions t := by rw [h'.transitions, h.transitions, or_assoc]

theorem Adds.congr (h : Adds g g' V T) (hV : ∀ fp k, V fp k ↔ V' fp k)
    (hT : ∀ t, T t ↔ T' t) : Adds g g' V' T' :=
  ⟨h.wired, fun fp k => by rw [h.knows, hV], fun t => by rw [h.transitions, hT]⟩

end

omit [Agent α] in
theorem SearchM.Quiet.adds {r r' : Run α} (h : Quiet r r') :
    Adds r.graph r'.graph (fun _ _ => False) fun _ => False := by
  obtain ⟨σ, hg⟩ := h.graph
  rw [hg]
  exact ⟨fun hw => hw.like _ σ, (Adds.refl r.graph).knows, (Adds.refl r.graph).transitions⟩

theorem adds_recordEdge (g : Graph) (t : Transition) :
    Adds g (g.recordEdge t).2 (fun _ _ => False) (· = t) where
  wired h := Graph.wired_recordEdge h t
  knows fp k := by rw [Graph.knows_recordEdge, or_false]
  transitions t' := by rw [Graph.mem_recordEdge, or_comm]

theorem SearchM.Visited.adds {ev : ε} {b : α} {r r' : Run α} (h : Visited ev b r r') :
    Adds r.graph r'.graph (fun fp k => fingerprint b = fp ∧ (history b).length ≤ k)
      fun _ => False where
  wired := h.wired
  knows fp k := by rw [h.knows_iff, eq_comm (a := fp)]
  transitions t := by rw [h.transitions_eq, or_false]

/-- **Exploration** without a deadline adds all that lies on the ways of candidate
    actions, and nothing else. -/
theorem explore_adds {s : Setting ε} {p : ExpandParams} {root : α} {n : Nat} (hw : World root n)
    (hs : Settled s.evaluator root n p.width p.mode p.ranking) (hp : Unhurried s p) :
    ∀ (depth : Nat) {b : α} {i : Nat} {r : Run α}, Within root i b → i + depth ≤ n →
    Ends (explore s p depth b) r
      (fun _ r' => Adds r.graph r'.graph
        (Reaches (Candidate s.evaluator p.width p.mode p.ranking) b depth)
        (Crosses (Candidate s.evaluator p.width p.mode p.ranking) b depth))
      (fun _ _ => True)
  | 0, b, i, r, hb, hn => by
    refine (visit_ends s p b).imp (fun _ r' hv => ?_) fun _ _ _ => trivial
    refine hv.adds.congr (fun fp k => reaches_zero.symm) fun t => ?_
    exact (iff_false_intro not_crosses_zero).symm
  | depth + 1, b, i, r, hb, hn => by
    refine Ends.bind ((visit_ends s p b).imp_error fun _ _ _ => trivial)
      fun _ r₁ h₁ => ?_
    refine Ends.bind (expired_ends p) fun late r₂ ⟨hq₂, hlate⟩ => ?_
    rw [if_neg (by rw [hlate hp]; exact Bool.false_ne_true)]
    refine Ends.bind ((choose_ends s p b).imp_error fun _ _ _ => trivial)
      fun xs r₃ ⟨hq₃, hxs⟩ => ?_
    have h₃ := h₁.adds.trans (hq₂.trans hq₃).adds
    have hbn := hb.mono (by omega : i ≤ n)
    have hcand := hs.chosen hbn hxs
    -- the children that are done, each with what lies below it
    refine (ends_forM (fun done r' => Adds r₃.graph r'.graph
      (fun fp k => ∃ x ∈ done, ∃ c, Moves b x c ∧
        Reaches (Candidate s.evaluator p.width p.mode p.ranking) c depth fp k)
      (fun t => ∃ x ∈ done, ∃ c, Moves b x c ∧ (t = ⟨fingerprint b, fingerprint c, x⟩ ∨
        Crosses (Candidate s.evaluator p.width p.mode p.ranking) c depth t))) xs [] ?_
      fun x hx done r₄ h₄ => ?_).imp_ok fun _ r' h' => ?_
    · exact (Adds.refl _).congr (fun _ _ => by simp) fun _ => by simp
    · refine Ends.bind ((stepped_ends b x).imp_error fun _ _ _ => trivial) ?_
      rintro c r₄ ⟨rfl, hm⟩
      refine ends_bind.2 (ends_changeGraph.2 ?_)
      refine (explore_adds hw hs hp depth (hb.move hm) (by omega)).imp_ok fun _ r₅ h₅ => ?_
      have huniq : ∀ {P : α → Prop}, (∃ c, Moves b x c ∧ P c) ↔ P c := fun {P} =>
        ⟨fun ⟨c', hm', hP⟩ => hm'.unique hm ▸ hP, fun hP => ⟨c, hm, hP⟩⟩
      refine ((h₄.trans (adds_recordEdge _ _)).trans h₅).congr (fun fp k => ?_) fun t => ?_
      · simp only [List.mem_append, List.mem_singleton, or_false, or_and_right, exists_or,
          exists_eq_left, huniq]
      · simp only [List.mem_append, List.mem_singleton, or_and_right, exists_or, exists_eq_left,
          huniq, or_assoc]
    · refine (h₃.trans h').congr (fun fp k => ?_) fun t => ?_
      · rw [reaches_succ fun hm => by rw [hw.appends hbn hm, List.length_append]; rfl]
        simp only [or_false, List.nil_append, hcand]
        simp only [exists_and_left]
      · rw [crosses_succ]
        simp only [or_false, false_or, List.nil_append, hcand, exists_and_left]

/-! ## Fresh graphs -/

section
variable {C : α → String → Prop} {root : α} {g : Graph} {depth k : Nat} {fp : Fingerprint}
  {m : Node}

/-- A graph that holds what lies within `depth` steps of a root. -/
structure Maps (C : α → String → Prop) (root : α) (depth : Nat) (g : Graph) : Prop where
  wired : g.Wired
  knows (fp : Fingerprint) (k : Nat) : g.Knows fp k ↔ Reaches C root depth fp k
  transitions (t : Transition) : t ∈ g.transitions ↔ Crosses C root depth t

theorem Adds.maps {g₀ : Graph} {seed : UInt64} (hg : (Graph.empty seed).Like g₀)
    (h : Adds g₀ g (Reaches C root depth) (Crosses C root depth)) : Maps C root depth g := by
  obtain ⟨σ, rfl⟩ := hg
  refine ⟨h.wired ((Graph.wired_empty seed).like _ σ), fun fp k => ?_, fun t => ?_⟩
  · rw [h.knows, or_iff_right]
    rintro ⟨m, hm, -⟩
    cases hm
  · rw [h.transitions, or_iff_right]
    simp [Graph.empty]

variable (hr : history root = [])
include hr

theorem reaches_root : Reaches C root depth fp k ↔
    ∃ j b, j ≤ depth ∧ Walk C root j b ∧ fingerprint b = fp ∧ j ≤ k := by
  simp only [Reaches, hr, List.length_nil, Nat.zero_add]

theorem Maps.known (h : Maps C root depth g) : (∃ m, g.node? fp = some m) ↔
    ∃ j b, j ≤ depth ∧ Walk C root j b ∧ fingerprint b = fp := by
  constructor
  · rintro ⟨m, hm⟩
    obtain ⟨j, b, hj, hb, hfp, -⟩ := (reaches_root hr).1 ((h.knows fp _).1 ⟨m, hm, le_rfl⟩)
    exact ⟨j, b, hj, hb, hfp⟩
  · rintro ⟨j, b, hj, hb, hfp⟩
    obtain ⟨m, hm, -⟩ := (h.knows fp j).2 ((reaches_root hr).2 ⟨j, b, hj, hb, hfp, le_rfl⟩)
    exact ⟨m, hm⟩

/-- The recorded actions are as many as the shortest way takes. -/
theorem Maps.isLeast (h : Maps C root depth g) (hm : g.node? fp = some m) :
    IsLeast {k | ∃ b, Walk C root k b ∧ fingerprint b = fp} m.actions.length := by
  obtain ⟨j, b, hj, hb, hfp, hle⟩ := (reaches_root hr).1 ((h.knows fp _).1 ⟨m, hm, le_rfl⟩)
  have hmin : m.actions.length ∈ lowerBounds {k | ∃ b, Walk C root k b ∧ fingerprint b = fp} := by
    rintro k ⟨b', hb', hfp'⟩
    rcases Nat.lt_or_ge depth k with hk | hk
    · -- a node has at most `depth` actions
      obtain ⟨m', hm', hle'⟩ := (h.knows fp j).2 ((reaches_root hr).2 ⟨j, b, hj, hb, hfp, le_rfl⟩)
      obtain rfl := Option.some.inj (hm.symm.trans hm')
      omega
    · obtain ⟨m', hm', hle'⟩ := (h.knows fp k).2
        ((reaches_root hr).2 ⟨k, b', hk, hb', hfp', le_rfl⟩)
      obtain rfl := Option.some.inj (hm.symm.trans hm')
      exact hle'
  have hj' := hmin ⟨b, hb, hfp⟩
  exact ⟨⟨b, (Nat.le_antisymm hj' hle).symm ▸ hb, hfp⟩, hmin⟩

end

/-- **Exact exploration**: an expansion of a fresh graph without a deadline records
    the states that candidate actions reach within the depth, each along as few
    actions as possible, and stores the transitions from those before the last
    step, each once. -/
theorem expand_exact {s : Setting ε} {p : ExpandParams} {a : α} {depth : Nat} {seed : UInt64}
    {t : Trace α} {suffix : List String} {r' : Run α} (hw : World a depth) (ha : history a = [])
    (hs : Settled s.evaluator a depth p.width p.mode p.ranking) (hp : p.deadline = none)
    (hd : depth ≤ depthCeiling) (h : expand s p a depth ⟨.empty seed, t⟩ = .ok suffix r') :
    let C := Candidate s.evaluator p.width p.mode p.ranking
    (∀ fp, (∃ m, r'.graph.node? fp = some m) ↔
        ∃ k b, k ≤ depth ∧ Walk C a k b ∧ fingerprint b = fp) ∧
      (∀ fp m, r'.graph.node? fp = some m →
        IsLeast {k | ∃ b, Walk C a k b ∧ fingerprint b = fp} m.actions.length) ∧
      (r'.graph.edges.toList.map (·.toTransition)).Nodup ∧
      ∀ e, e ∈ r'.graph.edges.toList.map (·.toTransition) ↔
        ∃ k b x c, k < depth ∧ Walk C a k b ∧ C b x ∧ Moves b x c ∧
          e = ⟨fingerprint b, fingerprint c, x⟩ := by
  intro C
  have hunhurried : Unhurried s p := fun deadline hdl => by
    rw [hp] at hdl
    cases hdl
  have hends := expand_ends hd
    (explore_adds hw hs hunhurried depth (r := ⟨.empty seed, t⟩) .start (Nat.zero_add depth).le)
  have hfresh : (Graph.empty seed).Like (.empty seed) := ⟨_, rfl⟩
  have hmaps : Maps C a depth r'.graph := (hends.ok h).1.maps hfresh
  refine ⟨fun fp => hmaps.known ha, fun fp m hm => hmaps.isLeast ha hm, hmaps.wired.nodup,
    fun e => ?_⟩
  rw [← hmaps.wired.transitions]
  exact hmaps.transitions e

theorem UpDown.settled {ev : UpDownEvaluator} {mode : EvalMode} {ranking : Bool} :
    Settled ev UpDown.start 2 2 mode ranking where
  ranked _ hb hc hd hl hl' := by
    obtain rfl := UpDown.eq_of_dump hb hc hd
    rw [Except.ok.inj (hl.symm.trans hl')]
  wide _ _ := le_rfl

/-- Two steps of the up/down world, in any order. -/
theorem expand_exact_upDown :
    ∃ suffix r', expand ⟨UpDownEvaluator.mk, ⟨id, 0⟩⟩ ⟨2, .loopNest, false, 0, none⟩
        UpDown.start (2 : Nat) ⟨.empty 0, .empty⟩ = .ok suffix r' ∧
      (∃ m, r'.graph.node? (fingerprint (⟨1, ["down", "up"]⟩ : UpDown)) = some m) ∧
      (r'.graph.edges.toList.map (·.toTransition)).Nodup := by
  have hends := expand_grows (s := ⟨UpDownEvaluator.mk, ⟨id, 0⟩⟩)
    (p := ⟨2, .loopNest, false, 0, none⟩) UpDown.world
    (growing_fresh ((Quiet.refl ⟨.empty 0, .empty⟩).fresh 0)) (ready_root rfl)
    (show 2 ≤ depthCeiling by decide) le_rfl
  rcases hends.result with ⟨suffix, r', h, -⟩ | ⟨e, r', -, he⟩
  · obtain ⟨hknown, -, hnodup, -⟩ := expand_exact UpDown.world rfl UpDown.settled rfl
      (by decide) h
    refine ⟨suffix, r', h, (hknown _).2 ⟨2, ⟨1, ["down", "up"]⟩, le_rfl, ?_, rfl⟩, hnodup⟩
    refine .go (c := ⟨0, ["down"]⟩) (x := "down") (by simp [Candidate, available])
      (UpDown.moves_iff.2 (.inr ⟨rfl, rfl⟩)) ?_
    exact .go (x := "up") (by simp [Candidate, available])
      (UpDown.moves_iff.2 (.inl ⟨rfl, rfl⟩)) .stay
  · exact absurd (he.2 UpDown.accepting) UpDown.not_blames

end ScheduleSearch

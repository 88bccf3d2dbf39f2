/-
  The up/down world is solved.

  Whichever of the greedy search and the two beams runs, and whatever it draws, it returns the
  climb: in each round the climb that is in sight is the best state, so `up` is committed, or
  the climb is among the leaves of the next level.

  * `InSight`: what a search sees are a climb and few actions after it;
  * `expand_climbs`: an expansion of a climb returns the climb that remains;
  * `greedyRounds_climb` and `Level.round`: the rounds keep to the climb;
  * **`runStrategy_climbs`**: the table is that of the climb, with the score of every step.
-/
import ScheduleSearch.Proofs.Beam
import ScheduleSearch.Proofs.Climb
import ScheduleSearch.Proofs.Strategies

namespace ScheduleSearch

open Agent SearchM

/-- Time never runs out: no deadline passes, and no two readings of the clock are further
    apart than the timeout. -/
structure Clock.Lasts (clock : Clock) (timeout share : Duration) : Prop where
  deadline {i j d : ℕ} : deadlineAfter (clock.reading i) share = some d → clock.reading j < d
  timeout (i j : ℕ) : clock.reading j - clock.reading i ≤ timeout.nanoseconds

namespace UpDown

/-- A history in sight: a climb, and after it at most `look` of the actions `F`. -/
structure InSight (look n : ℕ) (F : List String) (xs : List String) : Prop where
  length : xs.length ≤ n
  strays : ∃ i ys, xs = climb i ++ ys ∧ ys.length ≤ look ∧ ∀ y ∈ ys, y ∈ F

variable {s : UInt32} {xs zs F : List String} {i d k n N look : ℕ} {st : Setting UpDownEvaluator}
  {q : ExpandParams} {c : CheckedConfig} {r r' : Run UpDown} {frontier : List UpDown}
  {V : List String → Prop}

theorem inSight_climb (hl : i + zs.length ≤ n) (hz : zs.length ≤ look) (hF : ∀ z ∈ zs, z ∈ F) :
    InSight look n F (climb i ++ zs) :=
  ⟨by rwa [List.length_append, List.length_replicate], i, zs, rfl, hz, hF⟩

/-- A beam looks at all histories of its candidates. -/
theorem InSight.append (h : InSight n n F xs) (hl : xs.length + zs.length ≤ n)
    (hF : ∀ z ∈ zs, z ∈ F) : InSight n n F (xs ++ zs) := by
  obtain ⟨-, i, ys, rfl, -, hys⟩ := h
  rw [List.length_append, List.length_replicate] at hl
  rw [List.append_assoc]
  exact inSight_climb (by rw [List.length_append]; omega) (by rw [List.length_append]; omega)
    (List.forall_mem_append.2 ⟨hys, hF⟩)

theorem mem_of_climb {x : String} (hx : x ∈ climb k) : x ∈ ["up", "down"] := by
  rw [(List.mem_replicate.1 hx).2]
  exact List.mem_cons_self

theorem InSight.mem (h : InSight look n F xs) (hF : ∀ x ∈ F, x ∈ ["up", "down"]) :
    ∀ x ∈ xs, x ∈ ["up", "down"] := by
  obtain ⟨-, i, ys, rfl, -, hys⟩ := h
  exact List.forall_mem_append.2 ⟨fun _ => mem_of_climb, fun y hy => hF y (hys y hy)⟩

theorem forget_eq (a : UpDown) : Agent.forget a = after a.score [] := by
  show (⟨a.score, []⟩ : UpDown) = ⟨a.score + 0, []⟩
  rw [UInt32.add_zero]

/-- A graph that knows the top of the climb. -/
structure Climbed (s : UInt32) (V : List String → Prop) (n : ℕ) (g : Graph) : Prop extends
    Charted s V n g where
  known : g.Knows (site s (climb n)) n

theorem Climbed.quiet (h : Climbed s V n r.graph) (hq : Quiet r r') : Climbed s V n r'.graph :=
  ⟨h.toCharted.quiet hq, hq.grows.knows h.known⟩

section
variable (hs : s.toNat + n < 2 ^ 32)
include hs

/-! ## Expansions -/

/-- An expansion of a climb returns the climb that remains in sight. -/
theorem expand_climbs (hV : Apart s V n) (hw : WideEnough q.ranking q.width)
    (hq : Unhurried st q) (hd : d ≤ depthCeiling) (hn : i + d ≤ n) (hN : N ≤ i + d)
    (hsees : Sees V (followed q.ranking q.width) d (climb i)) (h : Charted s V N r.graph)
    (he : Found s r.graph (climb i)) :
    Ends (expand st q (after s (climb i)) d) r (fun suffix r' => Charted s V (i + d) r'.graph ∧
      (∀ j ≤ d, r'.graph.Knows (site s (climb (i + j))) (i + j)) ∧ suffix = climb d) NoError := by
  have hlen : (climb i).length = i := List.length_replicate
  refine (expand_ends hd (explore_climbs hs hV hn hw hq d hsees (by rw [hlen])
    (h.mono hV hN hn) he)).imp_ok ?_
  rintro suffix r' ⟨⟨h', -, hknows⟩, rfl⟩
  have hclimb : ∀ j ≤ d, r'.graph.Knows (site s (climb (i + j))) (i + j) := fun j hj => by
    have := hknows j hj
    rwa [← List.replicate_add, hlen] at this
  refine ⟨h', hclimb, ?_⟩
  have := h'.remaining_climb hV hn (Nat.le_add_right i d) (hclimb 0 (Nat.zero_le d))
    (hclimb d le_rfl)
  rwa [Nat.add_sub_cancel_left] at this

/-! ## Greedy rounds -/

/-- The rounds of a greedy search commit `up` after `up`. -/
theorem greedyRounds_climb {p : GreedyParams}
    (hV : Apart s (InSight look n (followed false p.width)) n) (hw : 2 ≤ p.width)
    (htime : st.clock.Lasts c.timeout (c.roundBudget n)) (hlook : 1 ≤ look)
    (hceiling : look ≤ depthCeiling) :
    ∀ (left : ℕ) {i N : ℕ} {r : Run UpDown}, 0 < left → i + left = n → N ≤ i + min look left →
      Charted s (InSight look n (followed false p.width)) N r.graph →
      Found s r.graph (climb i) →
      Ends (greedyRounds st c p (st.clock.reading k) n look left (after s (climb i))) r
        (fun _ r' => Climbed s (InSight look n (followed false p.width)) n r'.graph) NoError
  | left + 1, i, N, r, _, hi, hN, h, he => by
    obtain ⟨d, hd⟩ : ∃ d, min look (left + 1) = d + 1 := ⟨min look (left + 1) - 1, by omega⟩
    refine Ends.bind (roundParams_ends p.width p.mode false _ _) ?_
    rintro _ r₁ ⟨hq₁, k', rfl⟩
    rw [hd] at hN ⊢
    refine Ends.bind (expand_climbs hs hV (.inr hw) (fun _ hdl _ => htime.deadline hdl)
      (by omega : d + 1 ≤ depthCeiling) (by omega) hN
      (fun zs hzs hz => inSight_climb (by omega) (by omega) hz) (h.quiet hq₁)
      (he.grow hq₁.grows)) ?_
    rintro _ r₂ ⟨h₂, hknows, rfl⟩
    refine Ends.bind (report_ends _) fun _ r₃ hq₃ => ?_
    have h₃ := h₂.quiet hq₃
    have hknows₃ : ∀ j ≤ d + 1, r₃.graph.Knows (site s (climb (i + j))) (i + j) :=
      fun j hj => hq₃.grows.knows (hknows j hj)
    rw [climb, List.replicate_succ]
    dsimp only
    split
    · next hall =>
      -- the climb is in sight as a whole
      rw [List.length_cons, List.length_replicate] at hall
      obtain rfl : n = i + (d + 1) := by omega
      have hup : ∀ x ∈ ("up" :: List.replicate d "up").take (left + 1), x ∈ ["up", "down"] :=
        fun x hx => by
          rw [← List.replicate_succ] at hx
          exact mem_of_climb (List.mem_of_mem_take hx)
      refine (replayed_ok (replays_after hup)).imp_ok ?_
      rintro _ _ ⟨rfl, -⟩
      exact ⟨h₃, hknows₃ (d + 1) le_rfl⟩
    · next hpart =>
      rw [List.length_cons, List.length_replicate] at hpart
      have hmove : Moves (after s (climb i)) "up" (after s (climb (i + 1))) := by
        rw [climb, climb, List.replicate_succ']
        exact moves_after List.mem_cons_self
      refine Ends.bind (stepped_ok hmove) ?_
      rintro _ r₃ ⟨rfl, rfl⟩
      refine Ends.bind (elapsed_ends _) fun time r₄ ⟨hq₄, j, hj⟩ => ?_
      have := htime.timeout k j
      rw [if_neg (by omega)]
      exact greedyRounds_climb hV hw htime hlook hceiling left (by omega) (by omega) (by omega)
        (h₃.quiet hq₄) (.inl (by
          rw [List.length_replicate]
          exact hq₄.grows.knows (hknows₃ 1 (by omega))))

end

/-! ## Levels -/

/-- After `i` rounds of a level-by-level search its frontier holds the climb, among states in
    sight. -/
structure Level (s : UInt32) (V : List String → Prop) (i : ℕ) (frontier : List UpDown)
    (r : Run UpDown) : Prop where
  charted : Charted s V i r.graph
  known : 0 < i → r.graph.Knows (site s (climb i)) i
  state {b : UpDown} : b ∈ frontier → ∃ xs, b = after s xs ∧ V xs ∧ xs.length ≤ i ∧
    Found s r.graph xs
  climb_mem : after s (climb i) ∈ frontier

theorem Level.quiet (h : Level s V i frontier r) (hq : Quiet r r') : Level s V i frontier r' where
  charted := h.charted.quiet hq
  known hi := hq.grows.knows (h.known hi)
  state hb := by
    obtain ⟨xs, hxs, hsight, hl, he⟩ := h.state hb
    exact ⟨xs, hxs, hsight, hl, he.grow hq.grows⟩
  climb_mem := h.climb_mem

/-- The top of the climb is a leaf, since no transition leaves it within as many actions. -/
theorem Charted.climb_leaf (hV : Apart s V n) (hi : i ≤ n) {g : Graph} (h : Charted s V i g)
    (hk : g.Knows (site s (climb i)) k) : ∃ m ∈ g.leaves, m.actions = climb i := by
  obtain ⟨m, hm, -⟩ := hk
  have hkey := h.wired.keyed hm
  refine ⟨m, h.wired.mem_leaves.2 ⟨by rw [hkey, hm], fun t ht hsource => ?_⟩, h.actions_eq hV hi hm⟩
  obtain ⟨xs, hxs, -, hl, hsite, -⟩ := h.edge ht
  rw [hV xs i hxs hi (by rw [hsite, hsource, hkey]), List.length_replicate] at hl
  exact lt_irrefl i hl

/-- The leaves are rebuilt for the next level. -/
theorem leaves_level (hV : Apart s V n) (hi : i ≤ n)
    (hup : ∀ xs, V xs → ∀ x ∈ xs, x ∈ ["up", "down"]) (h : Climbed s V i r.graph) :
    Ends (r.graph.leaves.mapM fun m => replayed (after s []) m.actions) r (Level s V i) NoError := by
  have hnode : ∀ m ∈ r.graph.leaves, r.graph.node? m.fingerprint = some m :=
    fun m hm => (h.wired.mem_leaves.1 hm).1
  refine (ends_mapM (P := fun m b => b = after s m.actions) fun m hm =>
    replayed_ok (replays_after (hup _ (h.node (hnode m hm)).sight))).imp_ok ?_
  rintro bs _ ⟨rfl, hl, hl'⟩
  refine ⟨h.toCharted, fun _ => h.known, fun {b} hb => ?_, ?_⟩
  · obtain ⟨m, hm, rfl⟩ := hl b hb
    have hlisted := h.node (hnode m hm)
    refine ⟨m.actions, rfl, hlisted.sight, hlisted.length, .inl ?_⟩
    exact ⟨m, by rw [hlisted.site_eq, hnode m hm], le_rfl⟩
  · obtain ⟨m, hm, hclimb⟩ := h.toCharted.climb_leaf hV hi h.known
    obtain ⟨b, hb, rfl⟩ := hl' m hm
    rwa [hclimb] at hb

section
variable (hs : s.toNat + n < 2 ^ 32)
include hs

/-- One round goes one step up. -/
theorem Level.round (hV : Apart s (InSight n n (followed q.ranking q.width)) n)
    (hw : WideEnough q.ranking q.width) (hq : Unhurried st q) (hi : i < n)
    (h : Level s (InSight n n (followed q.ranking q.width)) i frontier r) :
    Ends (frontier.forM fun b => discard (expand st q b 1)) r
      (fun _ r' => Ends (r'.graph.leaves.mapM fun m => replayed (after s []) m.actions) r'
        (Level s (InSight n n (followed q.ranking q.width)) (i + 1)) NoError) NoError := by
  refine (ends_forM (fun done r' =>
    Charted s (InSight n n (followed q.ranking q.width)) (i + 1) r'.graph ∧
      r.graph.Grows r'.graph ∧ (after s (climb i) ∈ done →
        r'.graph.Knows (site s (climb (i + 1))) (i + 1))) frontier []
    ⟨h.charted.mono hV (Nat.le_succ i) hi, .refl _, by simp⟩
    fun b hb done r₁ ⟨h₁, hgrows₁, hdone⟩ => ?_).imp_ok ?_
  · obtain ⟨xs, rfl, hxs, hl, he⟩ := h.state hb
    refine (Ends.discard (expand_ends (show 1 ≤ depthCeiling by decide)
      (explore_climbs hs hV hi hw hq 1 (fun zs hzs hz => hxs.append (by omega) hz) (by omega) h₁
        (he.grow hgrows₁)))).imp_ok ?_
    rintro _ r₂ ⟨_, ⟨h₂, hgrows₂, hknows⟩, -⟩
    refine ⟨h₂, hgrows₁.trans hgrows₂, fun hmem => ?_⟩
    rcases List.mem_append.1 hmem with hmem | hmem
    · exact hgrows₂.knows (hdone hmem)
    · obtain rfl : climb i = xs := congrArg UpDown.actions (List.mem_singleton.1 hmem)
      have := hknows 1 le_rfl
      rwa [← List.replicate_add, List.length_replicate] at this
  · rintro _ r₁ ⟨h₁, -, hdone⟩
    exact leaves_level hV hi (fun xs hxs => hxs.mem fun _ => mem_of_followed)
      ⟨h₁, hdone h.climb_mem⟩

end

/-! ## Searches -/

/-- The table of the climb. -/
structure Climbs (s : UInt32) (n : ℕ) (t : Table) : Prop where
  actions_eq : t.actions = "" :: climb n
  rewards_eq : t.rewards = climbScores s n

/-- A search that knows the climb returns it. -/
theorem finish_climbs (hV : Apart s V n) {strategy : String} {start : ℕ}
    (h : Climbed s V n r.graph) :
    Ends (finish st c strategy start) r (fun t _ => Climbs s n t) NoError := by
  obtain ⟨m, hm, hnode, hactions⟩ := h.best_climb hV le_rfl h.known
  refine (finish_ends h.wired (fun _ _ hm => (h.node hm).entered) ⟨_, m, hm⟩).imp_ok ?_
  rintro t r' ⟨-, -, best, ns, xs, hbest, hc, rfl⟩
  obtain rfl : best = m := Option.some.inj (hbest.symm.trans hnode)
  obtain ⟨rfl, hscores⟩ := h.chain hV le_rfl hactions hc
  exact ⟨by rw [List.reverse_replicate], hscores⟩

/-- A graph of no steps knows its root, if it knows anything. -/
theorem Charted.climbed {g : Graph} (h : Charted s V 0 g) (hne : g.isEmpty = false) :
    Climbed s V 0 g := by
  obtain ⟨fp, m, hm⟩ := Graph.isEmpty_eq_false hne
  have hlisted := h.node hm
  have hnil := List.eq_nil_of_length_eq_zero (Nat.le_zero.1 hlisted.length)
  rw [← hlisted.site_eq, hnil] at hm
  exact ⟨h, m, hm, hlisted.length⟩

theorem charted_fresh {seed : UInt64} (hf : Fresh seed r r') : Charted s V N r'.graph := by
  obtain ⟨σ, hσ⟩ := hf.graph
  rw [hσ]
  exact (charted_empty seed).like _ σ

section
variable (hs : s.toNat + n < 2 ^ 32)
include hs

/-- An expansion of no steps records the root. -/
theorem expand_root (hV : Apart s V n) (hroot : V []) (h : Charted s V 0 r.graph) :
    Ends (expand st q (after s []) (0 : ℕ)) r (fun _ r' => Climbed s V 0 r'.graph) NoError := by
  refine (expand_ends (Nat.zero_le _)
    (visit_charts hs hV (Nat.zero_le n) h hroot le_rfl found_nil)).imp_ok ?_
  rintro _ r' ⟨⟨h', -, hk⟩, -⟩
  exact ⟨h', hk⟩

theorem greedySearch_climbs {p : GreedyParams} {a : UpDown} (ha : a.score = s)
    (hV : Apart s (InSight p.lookahead.toNat n (followed false p.width)) n)
    (hsteps : p.steps = n) (hn : n ≤ c.maxDepth) (hlook : 1 ≤ p.lookahead)
    (hmax : p.lookahead ≤ c.maxDepth) (hw : 2 ≤ p.width)
    (htime : st.clock.Lasts c.timeout (c.roundBudget n)) :
    Ends (greedySearch st c a p) r (fun t _ => Climbs s n t) NoError := by
  have hnat : p.steps.toNat = n := by omega
  refine greedySearch_rule
    (P := fun final r' => Climbed s (InSight p.lookahead.toNat n (followed false p.width)) n
      r'.graph ∨ n = 0 ∧ final = after s [] ∧
      Charted s (InSight p.lookahead.toNat n (followed false p.width)) n r'.graph)
    (B := fun r' => Climbed s (InSight p.lookahead.toNat n (followed false p.width)) n r'.graph)
    (fun hno _ => hno ⟨⟨by omega, by omega⟩, by omega, hmax⟩) (fun hla k r₁ hf => ?_)
    (fun final q r₂ r₃ h₂ hempty hq => ?_) (fun final r₂ h₂ hne => ?_)
    fun start r₂ h₂ => finish_climbs hV h₂
  · rw [hnat, forget_eq, ha]
    cases n with
    | zero => exact ends_pure.2 (.inr ⟨rfl, rfl, charted_fresh hf⟩)
    | succ n =>
      exact (greedyRounds_climb hs hV hw htime (by omega) hla (n + 1) (i := 0) (Nat.succ_pos n)
        (Nat.zero_add _) (Nat.zero_le _) (charted_fresh hf) found_nil).imp_ok
        fun _ _ h => .inl h
  · rcases h₂ with h₂ | ⟨rfl, rfl, h₂⟩
    · obtain ⟨m, hm, -⟩ := h₂.known
      exact absurd hm (Graph.not_node?_of_isEmpty hempty)
    · exact expand_root hs hV (inSight_climb (i := 0) le_rfl (Nat.zero_le _) (by simp))
        (h₂.quiet hq)
  · rcases h₂ with h₂ | ⟨rfl, -, h₂⟩
    exacts [h₂, h₂.climbed hne]

section
variable {p : BeamParams} {a : UpDown} (ha : a.score = s)
  (hV : Apart s (InSight n n (followed p.ranking p.width)) n) (hsteps : p.steps = n)
  (hn : n ≤ c.maxDepth) (hw : WideEnough p.ranking p.width)
include ha hV hsteps hn hw

theorem beamDfs_climbs (htime : st.clock.Lasts c.timeout c.timeout) :
    Ends (beamDfs st c a p) r (fun t _ => Climbs s n t) NoError := by
  have hnat : p.steps.toNat = n := by omega
  refine beamDfs_rule
    (P := fun r' => Climbed s (InSight n n (followed p.ranking p.width)) n r'.graph)
    (fun hno _ => hno ⟨by omega, by omega⟩) (fun hd start k r₁ hf => ?_)
    fun start r₂ h₂ => finish_climbs hV h₂
  rw [hnat] at hd ⊢
  rw [forget_eq, ha]
  refine (expand_climbs (i := 0) (d := n) (N := 0) hs hV hw (fun _ hdl _ => htime.deadline hdl) hd
    (Nat.zero_add n).le (Nat.zero_le _)
    (fun zs hzs hz => inSight_climb (by omega) hzs hz) (charted_fresh hf) found_nil).imp_ok ?_
  rintro _ r₂ ⟨h₂, hknows, -⟩
  have hk := hknows n le_rfl
  rw [Nat.zero_add] at h₂ hk
  exact ⟨h₂, hk⟩

theorem beamBfs_climbs (htime : st.clock.Lasts c.timeout (c.roundBudget n)) :
    Ends (beamBfs st c a p) r (fun t _ => Climbs s n t) NoError := by
  have hnat : p.steps.toNat = n := by omega
  have hroot : InSight n n (followed p.ranking p.width) [] :=
    inSight_climb (i := 0) (Nat.zero_le n) (Nat.zero_le n) (by simp)
  refine beamBfs_rule
    (P := fun r' => ∃ frontier,
      Level s (InSight n n (followed p.ranking p.width)) n frontier r')
    (B := fun r' => Climbed s (InSight n n (followed p.ranking p.width)) n r'.graph)
    (fun hno _ => hno ⟨by omega, by omega⟩) (fun _ k r₁ hf => ?_)
    (fun start k r₂ r₃ h₂ hempty hq => ?_) (fun r₂ h₂ hne => ?_)
    fun start r₂ h₂ => finish_climbs hV h₂
  · rw [hnat, forget_eq, ha]
    refine (beamRounds_rule (J := Level s (InSight n n (followed p.ranking p.width)))
      (fun _ _ _ _ h hq => h.quiet hq)
      (fun i frontier r₂ k' hi h₂ => h₂.round (q := p.settings st.clock _ k' (c.roundBudget n))
        hs hV hw (fun _ hdl _ => htime.deadline hdl) hi)
      n (Nat.zero_add n) ⟨charted_fresh hf, fun h => absurd h (lt_irrefl 0), fun {b} hb => ?_,
        List.mem_singleton_self _⟩).imp_ok ?_
    · exact ⟨[], List.mem_singleton.1 hb, hroot, le_rfl, found_nil⟩
    · rintro _ r₂ ⟨i, frontier, -, h₂, hall⟩
      exact ⟨frontier, hall (fun j => htime.timeout k j) ▸ h₂⟩
  · obtain ⟨frontier, h₂⟩ := h₂
    rcases Nat.eq_zero_or_pos n with rfl | hpos
    · rw [forget_eq, ha]
      exact expand_root hs hV hroot (h₂.charted.quiet hq)
    · obtain ⟨m, hm, -⟩ := h₂.known hpos
      exact absurd hm (Graph.not_node?_of_isEmpty hempty)
  · obtain ⟨frontier, h₂⟩ := h₂
    rcases Nat.eq_zero_or_pos n with rfl | hpos
    · exact h₂.charted.climbed hne
    · exact ⟨h₂.charted, h₂.known hpos⟩

end

end

/-! ## All sizes -/

/-- The strategies that go up `n` steps, with what they see: at most `look` of the actions `F`
    after a climb.  The time of an expansion is `share`. -/
inductive Ascends (c : SearchConfig) (n : ℕ) :
    Strategy → (look : ℕ) → (F : List String) → (share : Duration) → Prop
  | greedy {p : GreedyParams} : p.steps = n → 1 ≤ p.lookahead → p.lookahead ≤ c.maxDepth →
      2 ≤ p.width → Ascends c n (.greedy p) p.lookahead.toNat ["up", "down"] (c.roundBudget n)
  | beamDfs {p : BeamParams} : p.steps = n → WideEnough p.ranking p.width →
      Ascends c n (.beamDfs p) n (followed p.ranking p.width) c.timeout
  | beamBfs {p : BeamParams} : p.steps = n → WideEnough p.ranking p.width →
      Ascends c n (.beamBfs p) n (followed p.ranking p.width) (c.roundBudget n)

theorem Ascends.followed {strategy : Strategy} {share : Duration}
    (h : Ascends c.toSearchConfig n strategy look F share) : ∀ x ∈ F, x ∈ ["up", "down"] := by
  cases h with
  | greedy => exact fun _ hx => hx
  | beamDfs => exact fun _ hx => mem_of_followed hx
  | beamBfs => exact fun _ hx => mem_of_followed hx

/-- **The world is solved** for every size: whatever the score and the history of the agent,
    and whatever is drawn, a search of `n` steps returns the climb, with the score of every
    step.  Fingerprints need only tell a climb from the other histories in sight. -/
theorem runStrategy_climbs {strategy : Strategy} {share : Duration} {a : UpDown}
    (hst : Ascends c.toSearchConfig n strategy look F share) (hn : n ≤ c.maxDepth)
    (hs : a.score.toNat + n < 2 ^ 32) (htime : st.clock.Lasts c.timeout share)
    (hdistinct : ∀ xs k, InSight look n F xs → k ≤ n →
      fingerprint (after a.score xs) = fingerprint (after a.score (List.replicate k "up")) →
      Agent.dump (after a.score xs) = Agent.dump (after a.score (List.replicate k "up"))) :
    ∃ t r', runStrategy st c a strategy r = .ok t r' ∧
      t.actions = "" :: List.replicate n "up" ∧
      t.rewards = (List.range (n + 1)).map fun i => (a.score + i.toUInt32).toFloat := by
  have hV : Apart a.score (InSight look n F) n := fun xs k hxs hk hsite =>
    congrArg UpDown.actions (dump_injective (hxs.mem hst.followed) (fun _ => mem_of_climb)
      (hdistinct xs k hxs hk hsite))
  have hends : Ends (runStrategy st c a strategy) r (fun t _ => Climbs a.score n t) NoError := by
    cases hst with
    | greedy hsteps hlook hmax hw =>
      exact greedySearch_climbs hs rfl hV hsteps hn hlook hmax hw htime
    | beamDfs hsteps hw => exact beamDfs_climbs hs rfl hV hsteps hn hw htime
    | beamBfs hsteps hw => exact beamBfs_climbs hs rfl hV hsteps hn hw htime
  rcases hends.result with ⟨t, r', h, ht⟩ | ⟨_, _, _, hno⟩
  · exact ⟨t, r', h, ht.actions_eq, ht.rewards_eq⟩
  · exact hno.elim

/-- Two steps of an agent with a history: a greedy search that looks one step ahead, and a
    level-by-level beam that follows `up` alone. -/
theorem runStrategy_climbs_upDown :
    (∃ t r', runStrategy ⟨UpDownEvaluator.mk, ⟨fun _ => 0, 0⟩⟩ ⟨{}, by decide⟩
        (⟨0, ["down"]⟩ : UpDown) (.greedy ⟨2, 1, 2, .cost⟩) ⟨.empty 0, .empty⟩ = .ok t r' ∧
      t.actions = ["", "up", "up"] ∧ t.rewards = [0, 1, 2]) ∧
    ∃ t r', runStrategy ⟨UpDownEvaluator.mk, ⟨fun _ => 0, 0⟩⟩ ⟨{}, by decide⟩
        (⟨0, ["down"]⟩ : UpDown) (.beamBfs ⟨2, 1, .cost, true⟩) ⟨.empty 0, .empty⟩ = .ok t r' ∧
      t.actions = ["", "up", "up"] ∧ t.rewards = [0, 1, 2] := by
  have hwithin : ∀ xs : List String, (∀ x ∈ xs, x ∈ ["up", "down"]) → xs.length ≤ 2 →
      Within start 2 (after 0 xs) := fun xs hxs hl => by
    have hreplays : Replays (after 0 []) xs (after 0 ([] ++ xs)) := replays_after hxs
    exact Replays.within hreplays hl
  have hdistinct : ∀ {look : ℕ} {F : List String}, (∀ x ∈ F, x ∈ ["up", "down"]) →
      ∀ xs k, InSight look 2 F xs → k ≤ 2 →
        fingerprint (after 0 xs) = fingerprint (after 0 (List.replicate k "up")) →
        Agent.dump (after 0 xs) = Agent.dump (after 0 (List.replicate k "up")) :=
    fun hF xs k hxs hk h => congrArg Agent.dump (eq_of_fingerprint
      (hwithin xs (hxs.mem hF) hxs.length)
      (hwithin _ (fun _ => mem_of_climb) (by rwa [List.length_replicate])) h)
  have htime : (⟨fun _ => 0, 0⟩ : Clock).Lasts (.ofParts 60 0) (SearchConfig.roundBudget {} 2) := by
    refine ⟨fun {_ _ d} hd => ?_, fun _ _ => Nat.zero_le _⟩
    unfold deadlineAfter at hd
    dsimp only at hd
    split at hd
    · cases hd
      show 0 < 0 + 60 * 1000000000 / 2
      omega
    · cases hd
  have hrewards : (List.range 3).map (fun i => ((0 : UInt32) + i.toUInt32).toFloat) = [0, 1, 2] := by
    decide +kernel
  rw [← hrewards]
  constructor
  · exact runStrategy_climbs (n := 2) (a := ⟨0, ["down"]⟩)
      (.greedy rfl (by decide) (by decide) (by decide)) (by decide) (by decide) htime
      (hdistinct fun _ hx => hx)
  · exact runStrategy_climbs (n := 2) (a := ⟨0, ["down"]⟩) (.beamBfs rfl (.inl ⟨rfl, by decide⟩))
      (by decide) (by decide) htime (hdistinct fun _ => mem_of_followed)

end UpDown

end ScheduleSearch

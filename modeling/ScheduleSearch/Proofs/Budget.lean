/-
  The budget of a search, and its rows.

  Of an agent no more is asked here than that an action lengthens its history by one
  (`KeepsHistory`): fingerprints may collide, and the evaluator may answer anything.

  * `Paced`: no node of a graph has more than `n` actions, and the times are those of
    the depths up to the deepest node or beyond.  Expansion keeps this (`expand_paced`);
  * `Table.Fits`: the table of such a graph (`finish_fits`);
  * **`runStrategy_rows`**: whichever strategy runs, and whenever its time is up, it
    takes no more actions than it was asked for, and no row of its table is lost, nor when its
    reply is read.
-/
import ScheduleSearch.Proofs.Beam
import ScheduleSearch.Proofs.Strategies
import ScheduleSearch.Proofs.Wire

namespace ScheduleSearch

open Agent SearchM

variable {α ε : Type} [Agent α] [Evaluator ε α] {s : Setting ε} {c : CheckedConfig} {root a b : α}
  {n i : Nat} {g : Graph} {r : Run α} {start : Nat} {xs : List String}

/-- Actions lengthen the history by one, and it can be cleared. -/
structure KeepsHistory (α : Type) [Agent α] : Prop where
  forgets (b : α) : history (forget b) = []
  appends {b c : α} {x : String} : Moves b x c → ∃ y, history c = history b ++ [y]

theorem KeepsHistory.moves (h : KeepsHistory α) {x : String} (hm : Moves a x b) :
    (history b).length = (history a).length + 1 := by
  obtain ⟨y, hy⟩ := h.appends hm
  rw [hy, List.length_append, List.length_singleton]

theorem KeepsHistory.replays (h : KeepsHistory α) (hs : Replays a xs b) :
    (history b).length = (history a).length + xs.length := by
  induction xs generalizing a with
  | nil => rw [replays_nil.1 hs, List.length_nil, Nat.add_zero]
  | cons x xs ih =>
    obtain ⟨d, hd, hs⟩ := replays_cons.1 hs
    rw [ih hs, h.moves hd, List.length_cons]
    omega

/-! ## Depths -/

/-- A graph of states within `n` actions, with a time for the depth of each. -/
structure Paced (n : Nat) (g : Graph) : Prop where
  wired : g.Wired
  timed {fp : Fingerprint} {m : Node} : g.node? fp = some m → m.actions.length ∈ g.depthTimes
  within {d : Nat} : d ∈ g.depthTimes → d ≤ n

theorem Paced.length_le (h : Paced n g) {fp : Fingerprint} {m : Node} (hm : g.node? fp = some m) :
    m.actions.length ≤ n :=
  h.within (h.timed hm)

theorem Paced.mono {k : Nat} (h : Paced k g) (hk : k ≤ n) : Paced n g :=
  { h with within := fun hd => (h.within hd).trans hk }

theorem paced_empty (seed : UInt64) : Paced n (.empty seed) where
  wired := Graph.wired_empty seed
  timed hm := by cases hm
  within hd := absurd hd Std.TreeMap.not_mem_emptyc

theorem Paced.like (h : Paced n g) {g' : Graph} (hg : g.Like g') : Paced n g' := by
  obtain ⟨σ, rfl⟩ := hg
  exact ⟨h.wired.like _ σ, h.timed, h.within⟩

theorem Paced.recordEdge (h : Paced n g) (t : Transition) : Paced n (g.recordEdge t).2 := by
  have hwired := Graph.wired_recordEdge h.wired t
  obtain ⟨_, _, _, _, hg⟩ := g.recordEdge_nodes t
  rw [hg] at hwired ⊢
  exact ⟨hwired, h.timed, h.within⟩

theorem Paced.visited {ev : ε} {r' : Run α} (h : Paced n r.graph) (hb : (history b).length ≤ n)
    (hv : Visited ev b r r') : Paced n r'.graph := by
  have hwired := hv.wired h.wired
  obtain ⟨x, time, times, σ, -, -, -, hg, htimes⟩ := hv
  have hdepths : r'.graph.depthTimes = times := by
    obtain ⟨nodes, best, hr⟩ := Graph.record_edges
      { r.graph with depthTimes := times, sampler := σ } (fingerprint b) (history b) x time
    rw [hg, hr]
  refine ⟨hwired, fun {fp m} hm => ?_, fun {d} hd => ?_⟩
  · rw [hdepths, htimes]
    rw [hg] at hm
    rcases Graph.node?_record hm with ⟨-, rfl⟩ | hm
    exacts [.inl rfl, .inr (h.timed hm)]
  · rw [hdepths, htimes] at hd
    rcases hd with rfl | hd
    exacts [hb, h.within hd]

/-- **An expansion** goes no deeper than it is asked to. -/
theorem expand_paced (hα : KeepsHistory α) {p : ExpandParams} {steps : Int}
    (h : Paced n r.graph) (hb : (history b).length + steps.toNat ≤ n) :
    Ends (expand s p b steps) r (fun _ r' => Paced n r'.graph) (fun _ _ => True) := by
  have hn : (history b).length + reach steps ≤ n :=
    (Nat.add_le_add_left (reach_le steps) _).trans hb
  refine (expand_keeps (P := fun k c => (history c).length + k ≤ n)
    (I := fun r => Paced n r.graph) (fun h hq => h.like hq.graph) ?_ ?_ hn h).imp_error
    fun _ _ _ => trivial
  · intro k c r hc h
    refine (visit_ends s p c).imp (fun _ r' hv => h.visited (by omega) hv) ?_
    rintro e r' ⟨hlike, -⟩
    exact h.like hlike
  · intro k c x d r hc hm h
    refine ⟨?_, h.recordEdge _⟩
    rw [hα.moves hm]
    omega

/-! ## Tables -/

namespace Table

variable {t next : Table} {m₁ m₂ : Nat}

/-- A full table of at most `n` actions, with the times of at most `n` depths below the
    root. -/
structure Fits (n : Nat) (t : Table) : Prop where
  full : t.Full
  path_le : t.path.length ≤ n
  times_le : t.times.length ≤ n + 1

theorem Fits.concat (h : t.Fits m₁) (h' : next.Fits m₂) (offset : Float) :
    (t.concat next offset).Fits (m₁ + m₂) := by
  have hpath := (h.full.path_concat h'.full offset).2
  have hle : (t.concat next offset).path.length ≤ m₁ + m₂ := by
    rw [hpath, List.length_append]
    exact Nat.add_le_add h.path_le h'.path_le
  refine ⟨h.full.concat h'.full offset, hle, ?_⟩
  rw [h.full.length_times_concat h'.full offset]
  exact Nat.succ_le_succ hle

end Table

/-- The table of the best path has no more actions than the best state, and the times
    of all depths. -/
theorem Paced.fits (h : Paced n g) {t : Table} {g' : Graph} (hp : g.bestPath = .ok t g') :
    t.Fits n := by
  obtain ⟨best, ns, xs, hbest, hc, rfl, -⟩ := Graph.bestPath_chain h.wired hp
  have hnode := (h.wired.node?_best hbest).2
  have hpath : xs.length ≤ best.actions.length := hc.length_le
  have hbound := h.length_le hnode
  have hlength := Graph.lt_length_depthTimeCurve_iff.2 ⟨_, h.timed hnode, le_rfl⟩
  have hcurve : ¬ n + 1 < g.depthTimeCurve.length := fun hlt => by
    obtain ⟨k, hk, hle⟩ := Graph.lt_length_depthTimeCurve_iff.1 hlt
    have := h.within hk
    omega
  refine ⟨⟨rfl, ?_, ?_⟩, ?_, Nat.not_lt.1 hcurve⟩
  · simpa [Table.path] using hc.length_eq
  · simp only [Table.path, List.drop_one, List.tail_cons, List.length_reverse]
    omega
  · simp only [Table.path, List.drop_one, List.tail_cons, List.length_reverse]
    omega

omit [Agent α] [Evaluator ε α] in
theorem finish_fits {strategy : String} (h : Paced n r.graph) :
    Ends (finish s c strategy start) r (fun t _ => t.Fits n) (fun _ _ => True) := by
  refine finish_rule (fun h _ => h) ?_
  unfold Ends SearchM.bestPath
  cases hp : r.graph.bestPath with
  | ok t g => exact h.fits hp
  | error e g => trivial

/-! ## Strategies -/

section
variable (hα : KeepsHistory α)
include hα

theorem beamDfs_fits (p : BeamParams) :
    Ends (beamDfs s c a p) r (fun t _ => t.Fits p.steps.toNat) (fun _ _ => True) := by
  refine beamDfs_rule (P := fun r' => Paced p.steps.toNat r'.graph) (fun _ _ => trivial)
    (fun _ start k r₁ hf => ?_) fun start r₂ h₂ => finish_fits h₂
  refine expand_paced hα ((paced_empty c.seed).like hf.graph) ?_
  rw [hα.forgets, Int.toNat_natCast, List.length_nil, Nat.zero_add]

/-- **The rounds of a greedy search** commit at most one action each. -/
theorem greedyRounds_paced {p : GreedyParams} {steps lookahead : Nat} :
    ∀ (left : Nat) {current : α} {r : Run α}, Paced n r.graph →
    (history current).length + left ≤ n →
    Ends (greedyRounds s c p start steps lookahead left current) r
      (fun final r' => Paced n r'.graph ∧ (history final).length ≤ n) (fun _ _ => True)
  | 0, current, r, h, hn => ⟨h, hn⟩
  | left + 1, current, r, h, hn => by
    refine Ends.bind (roundParams_ends p.width p.mode false start _) fun _ r₁ ⟨hq₁, _⟩ => ?_
    refine Ends.bind (expand_paced hα (h.like hq₁.graph) ?_) fun suffix r₂ h₂ => ?_
    · rw [Int.toNat_natCast]
      omega
    refine Ends.bind (report_ends _) fun _ r₃ hq₃ => ?_
    have h₃ := h₂.like hq₃.graph
    cases suffix with
    | nil => exact ⟨h₃, by omega⟩
    | cons x rest =>
      dsimp only
      split
      · refine (replayed_ends current _).imp ?_ fun _ _ _ => trivial
        rintro final _ ⟨rfl, hfinal⟩
        refine ⟨h₃, ?_⟩
        rw [hα.replays hfinal]
        have := List.length_take_le (left + 1) (x :: rest)
        omega
      · refine Ends.bind ((stepped_ends current x).imp_error fun _ _ _ => trivial) ?_
        rintro next _ ⟨rfl, hnext⟩
        have hl := hα.moves hnext
        refine Ends.bind (elapsed_ends start) fun time r₅ ⟨hq₅, _⟩ => ?_
        have h₅ := h₃.like hq₅.graph
        split
        · exact Ends.bind (report_ends _) fun _ r₆ hq₆ =>
            ends_pure.2 ⟨h₅.like hq₆.graph, by omega⟩
        · exact greedyRounds_paced left h₅ (by omega)

theorem greedySearch_fits (p : GreedyParams) :
    Ends (greedySearch s c a p) r (fun t _ => t.Fits p.steps.toNat) (fun _ _ => True) := by
  refine greedySearch_rule (P := fun final r' => Paced p.steps.toNat r'.graph ∧
      (history final).length ≤ p.steps.toNat) (B := fun r' => Paced p.steps.toNat r'.graph)
    (fun _ _ => trivial) (fun _ k r₁ hf => ?_) (fun final q r₂ r₃ h₂ _ hq => ?_)
    (fun _ _ h _ => h.1) fun start r₂ h₂ => finish_fits h₂
  · refine greedyRounds_paced hα p.steps.toNat ((paced_empty c.seed).like hf.graph) ?_
    rw [hα.forgets, List.length_nil, Nat.zero_add]
  · exact expand_paced hα (h₂.1.like hq.graph) (by simpa using h₂.2)

theorem greedyWalksFrom_fits (p : GreedyParams) : ∀ (k walk : Nat) (best : Option Table)
    {r : Run α}, (∀ t ∈ best, t.Fits p.steps.toNat) →
    Ends (greedyWalksFrom s c a p k walk best) r (fun t _ => t.Fits p.steps.toNat)
      (fun _ _ => True)
  | 0, _, none, r, _ => trivial
  | 0, _, some t, r, h => h t rfl
  | k + 1, walk, best, r, h => by
    refine Ends.bind (greedySearch_fits hα p) fun table r₁ h₁ => ?_
    refine Ends.bind (report_ends _) fun _ r₂ _ => ?_
    refine greedyWalksFrom_fits p k (walk + 1) _ fun t ht => ?_
    -- the next best table is this one, or the best one so far
    have hbest : t = table ∨ t ∈ best := by
      cases best with
      | none => exact .inl (Option.some.inj ht).symm
      | some t' =>
        dsimp only at ht
        split at ht
        exacts [.inl (Option.some.inj ht).symm, .inr ht]
    exact hbest.elim (fun heq => heq ▸ h₁) (h t)

/-- After `i` rounds of a level-by-level search no state has more than `i` actions. -/
theorem beamRound_paced {p : ExpandParams} {frontier : List α} (hroot : history root = [])
    (h : Paced i r.graph) (hb : ∀ b ∈ frontier, (history b).length ≤ i) :
    Ends (frontier.forM fun b => discard (expand s p b 1)) r
      (fun _ r' => Ends (r'.graph.leaves.mapM fun m => replayed root m.actions) r'
        (fun next r'' => Paced (i + 1) r''.graph ∧ ∀ b ∈ next, (history b).length ≤ i + 1)
        (fun _ _ => True))
      (fun _ _ => True) := by
  refine (ends_forM (fun _ r' => Paced (i + 1) r'.graph) frontier [] (h.mono i.le_succ)
    fun b hbf _ r₁ h₁ => ?_).imp_ok fun _ r₁ h₁ => ?_
  · refine (Ends.discard (expand_paced hα h₁ (Nat.add_le_add_right (hb b hbf) 1))).imp_ok ?_
    rintro _ r₂ ⟨_, h₂⟩
    exact h₂
  · refine (ends_mapM (P := fun m b => (history b).length = m.actions.length) fun m _ =>
      (replayed_ends root m.actions).imp ?_ fun _ _ _ => trivial).imp_ok ?_
    · rintro b _ ⟨rfl, hb⟩
      exact ⟨rfl, by rw [hα.replays hb, hroot, List.length_nil, Nat.zero_add]⟩
    · rintro next r₂ ⟨rfl, hnext, -⟩
      refine ⟨h₁, fun b hb => ?_⟩
      obtain ⟨m, hm, hbm⟩ := hnext b hb
      rw [hbm]
      exact h₁.length_le (h₁.wired.mem_leaves.1 hm).1

theorem beamBfs_fits (p : BeamParams) :
    Ends (beamBfs s c a p) r (fun t _ => t.Fits p.steps.toNat) (fun _ _ => True) := by
  have hroot := hα.forgets a
  refine beamBfs_rule (P := fun r' => Paced p.steps.toNat r'.graph)
    (B := fun r' => Paced p.steps.toNat r'.graph) (fun _ _ => trivial) (fun _ k r₁ hf => ?_)
    (fun start k r₂ r₃ h₂ _ hq => ?_) (fun _ h _ => h) fun start r₂ h₂ => finish_fits h₂
  · refine (beamRounds_rule (J := fun i frontier r => Paced i r.graph ∧
      ∀ b ∈ frontier, (history b).length ≤ i) (fun _ _ _ _ h hq => ⟨h.1.like hq.graph, h.2⟩)
      (fun i frontier r₂ k _ h₂ => beamRound_paced hα hroot h₂.1 h₂.2) p.steps.toNat
      (Nat.zero_add _) ⟨(paced_empty c.seed).like hf.graph, fun b hb => ?_⟩).imp_ok ?_
    · rw [List.mem_singleton.1 hb, hroot]
      exact le_rfl
    · rintro _ r₂ ⟨i, _, hi, ⟨h₂, -⟩, -⟩
      exact h₂.mono hi
  · refine expand_paced hα (h₂.like hq.graph) ?_
    rw [hroot]
    exact Nat.zero_le _

theorem randomSearch_fits (p : RandomParams) :
    Ends (randomSearch s c a p) r (fun t _ => t.Fits p.steps.toNat) (fun _ _ => True) := by
  refine randomSearch_rule (P := fun r' => Paced p.steps.toNat r'.graph) (fun _ _ => trivial)
    (fun _ start r₁ hf => ?_) (fun h hq => h.like hq.graph) fun start r₂ h₂ => finish_fits h₂
  refine randomWalks_rule (P := fun r' => Paced p.steps.toNat r'.graph)
    (fun h hq => h.like hq.graph) (fun h hq => h.like hq.graph) (fun h => h)
    (fun h => expand_paced hα h ?_) _ 0 ((paced_empty c.seed).like hf.graph)
  rw [hα.forgets, Int.toNat_natCast, List.length_nil, Nat.zero_add]

/-- The rows of two phases are put together, so their times are of one length with
    the path. -/
theorem beamBeam_fits (first second : BeamPhase) :
    Ends (beamBeam s c a first second) r
      (fun t _ => t.Fits (first.steps.toNat + second.steps.toNat) ∧
        t.times.length = t.path.length + 1) (fun _ _ => True) := by
  unfold beamBeam
  refine Ends.bind (beamDfs_fits hα first.params) fun phase r₁ h₁ => ?_
  refine Ends.bind ((replayed_ends _ _).imp_error fun _ _ _ => trivial)
    fun mid r₂ _ => ?_
  refine Ends.bind (report_ends _) fun _ r₃ _ => ?_
  refine Ends.bind (beamDfs_fits hα second.params) fun next r₄ h₄ => ends_pure.2 ?_
  exact ⟨h₁.concat h₄ _, h₁.full.length_times_concat h₄.full _⟩

theorem runStrategy_fits (st : Strategy) :
    Ends (runStrategy s c a st) r
      (fun t _ => t.Fits st.budget ∧
        ∀ first second, st = .beamBeam first second → t.times.length = t.path.length + 1)
      (fun _ _ => True) := by
  cases st with
  | greedy p => exact (greedySearch_fits hα p).imp_ok fun _ _ h => ⟨h, nofun⟩
  | greedyWalks walks p =>
    exact (greedyWalksFrom_fits hα p (max walks 1) 0 none nofun).imp_ok
      fun _ _ h => ⟨h, nofun⟩
  | beamDfs p => exact (beamDfs_fits hα p).imp_ok fun _ _ h => ⟨h, nofun⟩
  | beamBfs p => exact (beamBfs_fits hα p).imp_ok fun _ _ h => ⟨h, nofun⟩
  | beamBeam first second =>
    exact (beamBeam_fits hα first second).imp_ok fun _ _ h => ⟨h.1, fun _ _ _ => h.2⟩
  | random p => exact (randomSearch_fits hα p).imp_ok fun _ _ h => ⟨h, nofun⟩

end

/-- **Budgets and rows**: a search takes at most as many actions as its strategy is
    asked for, and has the times of their depths and of no depth beyond that budget; one
    in two phases has no other times.  So no row is lost when the columns are paired, nor
    in the reply: it is read as an array of one row for the root and one for each action. -/
theorem runStrategy_rows (hα : KeepsHistory α) {st : Strategy} {t : Table} {r' : Run α}
    (h : runStrategy s c a st r = .ok t r') :
    t.path.length ≤ st.budget ∧ t.path.length + 1 ≤ t.times.length ∧
      t.times.length ≤ st.budget + 1 ∧
      (∀ first second, st = .beamBeam first second → t.times.length = t.path.length + 1) ∧
      t.rows.length = t.path.length + 1 ∧ t.rows.map (·.action) = "" :: t.path ∧
      t.rows.map (·.reward) = t.rewards ∧
      ∃ vs, Json.Value.read? (Json.utf8 t.toJson) = some (.array vs) ∧
        vs.length = t.path.length + 1 ∧ List.Forall₂ Step.ReadAs t.rows vs := by
  obtain ⟨hfits, htwo⟩ := (runStrategy_fits hα st).ok h
  obtain ⟨hactions, hrewards⟩ := hfits.full.columns
  obtain ⟨vs, htext, hread⟩ := t.read?_toJson
  have hlength : vs.length = t.path.length + 1 := by
    rw [← hread.length_eq, hfits.full.length_rows]
  exact ⟨hfits.path_le, hfits.full.times_le, hfits.times_le, htwo, hfits.full.length_rows,
    hactions, hrewards, vs, htext, hlength, hread⟩

theorem UpDown.keepsHistory : KeepsHistory UpDown where
  forgets _ := rfl
  appends {b c x} h := by
    rcases UpDown.moves_iff.1 h with ⟨-, rfl⟩ | ⟨-, rfl⟩ <;> exact ⟨x, rfl⟩

/-- A search in two phases of the up/down world, without any time. -/
theorem runStrategy_rows_upDown :
    ∃ t r', runStrategy ⟨UpDownEvaluator.mk, ⟨id, 0⟩⟩ ⟨{ timeout := ⟨0⟩ }, by decide⟩ UpDown.start
        (.beamBeam ⟨1, 2, .loopNest⟩ ⟨1, 2, .policy⟩) ⟨.empty 0, .empty⟩ = .ok t r' ∧
      t.path.length ≤ 2 ∧ t.times.length = t.path.length + 1 ∧
      t.rows.length = t.path.length + 1 ∧
      ∃ vs, Json.Value.read? (Json.utf8 t.toJson) = some (.array vs) ∧
        vs.length = t.path.length + 1 := by
  obtain ⟨t, r', h⟩ := UpDown.runStrategy_ok (s := ⟨UpDownEvaluator.mk, ⟨id, 0⟩⟩)
    (c := ⟨{ timeout := ⟨0⟩ }, by decide⟩) (r := ⟨.empty 0, .empty⟩)
    (.beamBeam ⟨1, 2, .loopNest⟩ ⟨1, 2, .policy⟩) rfl fun k hk => by
      rcases List.mem_pair.1 hk with rfl | rfl <;> exact ⟨by decide, by decide⟩
  obtain ⟨hpath, -, -, htwo, hrows, -, -, vs, htext, hlength, -⟩ :=
    runStrategy_rows UpDown.keepsHistory h
  exact ⟨t, r', h, hpath, htwo _ _ rfl, hrows, vs, htext, hlength⟩

end ScheduleSearch

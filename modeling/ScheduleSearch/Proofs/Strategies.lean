/-
  What the strategies keep true.

  Each strategy grows a fresh graph by expansions from ready states and returns the
  table of its best path, so each returns a sound table with the highest score, or
  blames the evaluator (`Blamed`).

  * `Grown.replays_remaining`: the actions to the best state can be taken from the
    state that asks for them, although they extend the recorded actions and not
    its own; so a greedy search may commit them (`greedyRounds_grows`);
  * `beamRound_grows`: after some rounds the graph has at most that depth, and its
    leaves can be rebuilt;
  * **`runStrategy_ends`**: the strategies by their counts (`Strategy.budget`).
-/
import ScheduleSearch.Proofs.Beam
import ScheduleSearch.Proofs.Extraction
import ScheduleSearch.Proofs.UpDownWorld
import ScheduleSearch.Proofs.Walks
import ScheduleSearch.Search.Request

namespace ScheduleSearch

open Agent SearchM

variable {α ε : Type} [Agent α] [Evaluator ε α] {s : Setting ε} {c : CheckedConfig} {root a b : α}
  {n : Nat} {g : Graph} {before : List (Scored α)} {r : Run α} {start : Nat}

/-! ## Committed actions -/

/-- A state that is known along no more actions than it has can take the actions
    that remain to the best one, and each is known on the way. -/
theorem Grown.replays_remaining {ev : ε} (h : Grown ev root n g) (hw : World root n)
    (hb : Ready root g b) (ht : Trail root g (history b))
    {xs : List String} (hxs : xs <+: g.remaining (fingerprint b)) (hne : xs ≠ [])
    (hn : (history b).length + xs.length ≤ n) :
    ∃ c, Replays b xs c ∧ history c = history b ++ xs ∧
      g.Knows (fingerprint c) (history c).length := by
  have hne' : g.remaining (fingerprint b) ≠ [] := fun h0 => by
    rw [h0, List.prefix_nil] at hxs
    exact hne hxs
  obtain ⟨best, base, hbest, hbase, hact⟩ := Graph.remaining_ne_nil hne'
  obtain ⟨fp, -, hnode⟩ := Option.bind_eq_some_iff.1 hbest
  obtain ⟨base', hbase', hle⟩ := ht _ b List.prefix_rfl hb.replays
  obtain rfl : base = base' := Option.some.inj (hbase.symm.trans hbase')
  have hbn : Within root (history b).length b := hb.replays.within le_rfl
  -- the recorded actions of the state and then `xs` are on the way to the best one
  have hpre : base.actions ++ xs <+: best.actions := by
    rw [hact]
    exact (List.prefix_append_right_inj _).2 hxs
  obtain ⟨e, he, -⟩ := (h.node hnode).state
  obtain ⟨d', hd'⟩ := he.before hpre
  obtain ⟨d, hd, hxd⟩ := replays_append.1 hd'
  have hkey := h.wired.keyed hbase
  obtain ⟨-, d₀, hd₀, hdump⟩ := h.reached hw (by rw [hkey]; exact hbase)
    (hbn.mono (by omega)) hkey.symm
  obtain rfl := hd₀.unique hd
  obtain ⟨c, hc, hdc⟩ := hw.replays_congr (hd.within le_rfl) hbn hdump hxd (by omega) hn
  have hh := hw.history_replays hbn hc (by omega)
  refine ⟨c, hc, hh, ?_⟩
  rw [hh, ← World.fingerprint_congr hdc]
  refine ((h.node hnode).trail _ d' hpre hd').mono ?_
  rw [List.length_append, List.length_append]
  omega

/-- The state after committed actions may be explored next. -/
theorem ready_committed (hb : Ready root g b) (ht : Trail root g (history b)) {x : String} {c : α}
    (hm : Moves b x c) (hh : history c = history b ++ [x])
    (hk : g.Knows (fingerprint c) (history c).length) : Ready root g c := by
  have hc : Replays root (history c) c := by
    rw [hh]
    exact replays_concat.2 ⟨b, hb.replays, hm⟩
  refine ready_of_trail hc fun q d hq hd => ?_
  rw [hh] at hq
  rcases List.prefix_concat_iff.1 hq with rfl | hq
  · rw [← hh] at hd ⊢
    obtain rfl := hd.unique hc
    exact hk
  · exact ht q d hq hd

theorem committed_ends {x : String} {d : α} {E : SearchError → Run α → Prop}
    (hb : Ready root r.graph b) (ht : Trail root r.graph (history b)) (hd : Replays b [x] d)
    (hh : history d = history b ++ [x]) (hk : r.graph.Knows (fingerprint d) (history d).length) :
    Ends (stepped b x) r
      (fun c r' => r' = r ∧ Ready root r.graph c ∧ (history c).length = (history b).length + 1)
      E := by
  obtain ⟨d', hm, hnil⟩ := replays_cons.1 hd
  obtain rfl := replays_nil.1 hnil
  refine (stepped_ok hm).imp_ok ?_
  rintro _ _ ⟨rfl, rfl⟩
  exact ⟨rfl, ready_committed hb ht hm hh hk, by rw [hh, List.length_append]; rfl⟩

/-- **The rounds of a greedy search** keep the invariant; the state at the end may be
    explored, unless some state is known. -/
theorem greedyRounds_grows (hw : World root n) {p : GreedyParams}
    {steps lookahead : Nat} (hla : lookahead ≤ depthCeiling) :
    ∀ (left : Nat) {current : α} {r : Run α}, Growing s.evaluator root n before r →
    Ready root r.graph current → (history current).length + left ≤ n →
    Ends (greedyRounds s c p start steps lookahead left current) r
      (fun final r' => Growing s.evaluator root n before r' ∧
        (Ready root r'.graph final ∧ (history final).length ≤ n ∨
          ∃ fp k, r'.graph.Knows fp k))
      (Fails s.evaluator root n)
  | 0, current, r, h, hb, hn => ⟨h, .inl ⟨hb, hn⟩⟩
  | left + 1, current, r, h, hb, hn => by
    refine Ends.bind (roundParams_ends p.width p.mode false start _) fun _ r₁ ⟨hq₁, _⟩ => ?_
    refine Ends.bind (expand_grows hw (h.quiet hq₁) (hb.grow hq₁.grows)
      ((Nat.min_le_left lookahead (left + 1)).trans hla) (by omega)) ?_
    rintro suffix r₂ ⟨h₂, hsuf⟩
    refine Ends.bind (report_ends _) fun _ r₃ hq₃ => ?_
    have h₃ := h₂.quiet hq₃
    have hb₃ := hb.grow (hq₁.grows.trans h₃.grows)
    have hknown : ∃ fp k, r₃.graph.Knows fp k :=
      ⟨_, _, h₃.trail _ current List.prefix_rfl hb.replays⟩
    have hsuf₃ : suffix = r₃.graph.remaining (fingerprint current) := by
      obtain ⟨σ, hσ⟩ := hq₃.graph
      rw [hsuf, hσ]
      rfl
    have hway : ∀ xs, xs <+: suffix → xs ≠ [] → xs.length ≤ left + 1 →
        ∃ d, Replays current xs d ∧ history d = history current ++ xs ∧
          r₃.graph.Knows (fingerprint d) (history d).length := fun xs hxs hne hl =>
      h₃.growing.grown.replays_remaining hw hb₃ h₃.trail (hsuf₃ ▸ hxs) hne (by omega)
    cases suffix with
    | nil => exact ⟨h₃.growing, .inr hknown⟩
    | cons x rest =>
      dsimp only
      split
      · -- the way fills the steps that are left
        obtain ⟨d, hd, -⟩ := hway _ (List.take_prefix (left + 1) (x :: rest)) (by simp) (by simp)
        refine (replayed_ok hd).imp_ok ?_
        rintro _ r₄ ⟨rfl, rfl⟩
        exact ⟨h₃.growing, .inr hknown⟩
      · obtain ⟨d, hd, hh, hk⟩ := hway [x] (by simp) (by simp) (by simp)
        refine Ends.bind (committed_ends hb₃ h₃.trail hd hh hk) ?_
        rintro next _ ⟨rfl, hnext, hl⟩
        refine Ends.bind (elapsed_ends start) fun time r₅ ⟨hq₅, _⟩ => ?_
        have h₅ := h₃.growing.quiet hq₅
        split
        · refine Ends.bind (report_ends _) fun _ r₆ hq₆ => ends_pure.2 ⟨h₅.quiet hq₆, .inl ?_⟩
          exact ⟨(hnext.grow hq₅.grows).grow hq₆.grows, by omega⟩
        · exact greedyRounds_grows hw hla left h₅ (hnext.grow hq₅.grows) (by omega)

/-! ## Searches -/

/-- An error of the evaluator, where counts are allowed and candidates accepted. -/
def Blamed (ev : ε) (a : α) (n : Nat) (allowed : Prop) (e : SearchError) (r : Run α) : Prop :=
  allowed → Accepting ev a n → Blames ev (Within a n) r.trace e

section
variable {ev : ε} {allowed : Prop} {E : SearchError → Run α → Prop}

theorem Fails.blamed {e : SearchError} (h : Fails ev (forget a) n e r) :
    Blamed ev a n allowed e r := fun _ hA =>
  (h.2 (hA.sub (.forget .start) (Nat.zero_add n).le)).imp fun _ hb =>
    (Within.trans (.forget (.start (n := 0))) hb).mono (Nat.zero_add n).le

theorem Graph.isEmpty_eq_false (h : g.isEmpty = false) : ∃ fp m, g.node? fp = some m := by
  obtain ⟨fp, hfp⟩ := Std.TreeMap.isEmpty_eq_false_iff_exists_mem.1 h
  exact ⟨fp, Option.isSome_iff_exists.1 (Std.TreeMap.mem_iff_isSome_getElem?.1 hfp)⟩

theorem Graph.not_node?_of_isEmpty (h : g.isEmpty) {fp : Fingerprint} {m : Node} :
    ¬ g.node? fp = some m := fun hm =>
  Std.TreeMap.isEmpty_iff_forall_not_mem.1 h fp
    (Std.TreeMap.mem_iff_isSome_getElem?.2 (Option.isSome_iff_exists.2 ⟨m, hm⟩))

end

/-- A search with a graph from `root` that knows some state ends with a table. -/
theorem finish_returned {strategy : String} {E : SearchError → Run α → Prop} (hw : World root n)
    (h : Growing s.evaluator root n before r) (hk : ∃ fp k, r.graph.Knows fp k) :
    Ends (finish s c strategy start) r (fun t r' => Returned s.evaluator root n before t r') E := by
  obtain ⟨fp, k, m, hm, -⟩ := hk
  exact (finish_sound hw h ⟨fp, m, hm⟩).imp_ok fun _ _ h => h.1

theorem beamDfs_ends (p : BeamParams) (hw : World a n) (hn : p.steps.toNat ≤ n) :
    Ends (beamDfs s c a p) r
      (fun t r' => Returned s.evaluator (forget a) n r.trace.scored.toList t r')
      (Blamed s.evaluator a n (c.Allows p.steps)) := by
  obtain ⟨hroot, hr⟩ := hw.forgotten
  refine beamDfs_rule (P := fun r' => Growing s.evaluator (forget a) n r.trace.scored.toList r' ∧
    ∃ fp k, r'.graph.Knows fp k) (fun hno _ ha => absurd ha hno) (fun hd start k r₁ hf => ?_)
    fun start r₂ h₂ => finish_returned hroot h₂.1 h₂.2
  refine (expand_grows hroot (growing_fresh hf) (ready_root hr) hd ?_).imp ?_
    fun _ _ h => h.blamed
  · rw [hr, List.length_nil]
    omega
  · rintro _ r₂ ⟨h₂, -⟩
    exact ⟨h₂.growing, _, _, h₂.trail _ _ List.prefix_rfl (ready_root hr (g := r₂.graph)).replays⟩

theorem greedySearch_ends (p : GreedyParams) (hw : World a n) (hn : p.steps.toNat ≤ n) :
    Ends (greedySearch s c a p) r
      (fun t r' => Returned s.evaluator (forget a) n r.trace.scored.toList t r')
      (Blamed s.evaluator a n (c.Allows p.steps ∧ c.Allows p.lookahead)) := by
  obtain ⟨hroot, hr⟩ := hw.forgotten
  refine greedySearch_rule (P := fun final r' =>
      Growing s.evaluator (forget a) n r.trace.scored.toList r' ∧
        (Ready (forget a) r'.graph final ∧ (history final).length ≤ n ∨
          ∃ fp k, r'.graph.Knows fp k))
    (B := fun r' => Growing s.evaluator (forget a) n r.trace.scored.toList r' ∧
      ∃ fp k, r'.graph.Knows fp k) (fun hno _ ha => absurd ha hno) (fun hla k r₁ hf => ?_)
    (fun final q r₂ r₃ ⟨h₂, hready⟩ hempty hq => ?_) (fun final r₂ ⟨h₂, _⟩ hne => ?_)
    fun start r₂ h₂ => finish_returned hroot h₂.1 h₂.2
  · refine (greedyRounds_grows hroot hla p.steps.toNat (growing_fresh hf) (ready_root hr)
      ?_).imp_error fun _ _ h => h.blamed
    rw [hr, List.length_nil]
    omega
  · have hready : Ready (forget a) r₂.graph final ∧ (history final).length ≤ n := by
      refine hready.resolve_right ?_
      rintro ⟨fp, k, m, hm, -⟩
      exact Graph.not_node?_of_isEmpty hempty hm
    refine (expand_grows hroot (h₂.quiet hq) (hready.1.grow hq.grows) (Nat.zero_le _)
      hready.2).imp ?_ fun _ _ h => h.blamed
    rintro _ r₄ ⟨h₄, -⟩
    exact ⟨h₄.growing, _, _, h₄.trail _ _ List.prefix_rfl hready.1.replays⟩
  · obtain ⟨fp, m, hm⟩ := Graph.isEmpty_eq_false hne
    exact ⟨h₂, fp, _, m, hm, le_rfl⟩

/-- A node with the state that its recorded actions lead to. -/
structure Rebuilt (root : α) (g : Graph) (m : Node) (b : α) : Prop where
  history_eq : history b = m.actions
  fingerprint_eq : fingerprint b = m.fingerprint
  ready : Ready root g b

/-- The leaves of a graph can be rebuilt, and explored. -/
theorem leaves_ends (hw : World root n) (hr : history root = []) {ev : ε}
    (h : Grown ev root n r.graph) {E : SearchError → Run α → Prop} :
    Ends (r.graph.leaves.mapM fun m => replayed root m.actions) r
      (fun bs r' => r' = r ∧ (∀ b ∈ bs, ∃ m ∈ r.graph.leaves, Rebuilt root r.graph m b) ∧
        ∀ m ∈ r.graph.leaves, ∃ b ∈ bs, Rebuilt root r.graph m b) E := by
  refine ends_mapM fun m hm => ?_
  have hrec := h.node (h.wired.mem_leaves.1 hm).1
  obtain ⟨b, hb, hfp, -⟩ := hrec.state
  have hl := hrec.length
  have hh : history b = m.actions := by
    rw [hw.history_replays (.start (n := 0)) hb (by omega), hr, List.nil_append]
  refine (replayed_ok hb).imp_ok ?_
  rintro _ r' ⟨rfl, rfl⟩
  exact ⟨rfl, hh, hfp, ready_of_trail (by rw [hh]; exact hb) (by rw [hh]; exact hrec.trail)⟩

/-- The states of a frontier may be explored, and so may the leaves after that. -/
def Frontier (ev : ε) (root : α) (before : List (Scored α)) (i : Nat) (frontier : List α)
    (r : Run α) : Prop :=
  Growing ev root i before r ∧ ∀ b ∈ frontier, Ready root r.graph b ∧ (history b).length ≤ i

/-- **A round of a level-by-level search**: after `i` of them the graph was grown to
    a depth of `i`. -/
theorem beamRound_grows (hw : World root n) (hr : history root = []) {p : ExpandParams} {i : Nat}
    (hi : i < n) {frontier : List α} (h : Frontier s.evaluator root before i frontier r) :
    Ends (frontier.forM fun b => discard (expand s p b 1)) r
      (fun _ r' => Growing s.evaluator root (i + 1) before r' ∧
        Ends (r'.graph.leaves.mapM fun m => replayed root m.actions) r'
          (Frontier s.evaluator root before (i + 1)) (Fails s.evaluator root n))
      (Fails s.evaluator root n) := by
  obtain ⟨h, hb⟩ := h
  have hw' : World root (i + 1) := hw.sub .start (by omega : 0 + (i + 1) ≤ n)
  refine (ends_forM (fun _ r' => Growing s.evaluator root (i + 1) before r' ∧
    r.graph.Grows r'.graph) frontier [] ⟨h.mono i.le_succ, .refl _⟩
    fun b hbf _ r₁ ⟨h₁, hg₁⟩ => ?_).imp_ok fun _ r₁ ⟨h₁, _⟩ => ⟨h₁, ?_⟩
  · obtain ⟨hready, hl⟩ := hb b hbf
    refine (Ends.discard (expand_grows hw' h₁ (hready.grow hg₁) (show 1 ≤ depthCeiling by decide)
      (by omega))).imp ?_ fun _ _ he => he.mono (by omega)
    rintro _ r₂ ⟨_, h₂, -⟩
    exact ⟨h₂.growing, hg₁.trans h₂.grows⟩
  · refine (leaves_ends hw' hr h₁.grown).imp_ok ?_
    rintro next r₂ ⟨rfl, hnext, -⟩
    refine ⟨h₁, fun b hb => ?_⟩
    obtain ⟨m, hm, hbm⟩ := hnext b hb
    refine ⟨hbm.ready, ?_⟩
    rw [hbm.history_eq]
    exact (h₁.grown.node (h₁.grown.wired.mem_leaves.1 hm).1).length

theorem Frontier.quiet {i : Nat} {frontier : List α} {r' : Run α}
    (h : Frontier s.evaluator root before i frontier r) (hq : Quiet r r') :
    Frontier s.evaluator root before i frontier r' :=
  ⟨h.1.quiet hq, fun b hb => ⟨(h.2 b hb).1.grow hq.grows, (h.2 b hb).2⟩⟩

theorem frontier_root {seed : UInt64} {r' : Run α} (hr : history root = []) (hf : Fresh seed r r') :
    Frontier s.evaluator root r.trace.scored.toList 0 [root] r' := by
  refine ⟨growing_fresh hf, fun b hb => ?_⟩
  obtain rfl := List.mem_singleton.1 hb
  exact ⟨ready_root hr, by rw [hr]; exact le_rfl⟩

theorem beamBfs_ends (p : BeamParams) (hw : World a n) (hn : p.steps.toNat ≤ n) :
    Ends (beamBfs s c a p) r
      (fun t r' => Returned s.evaluator (forget a) n r.trace.scored.toList t r')
      (Blamed s.evaluator a n (c.Allows p.steps)) := by
  obtain ⟨hroot, hr⟩ := hw.forgotten
  refine beamBfs_rule (P := Growing s.evaluator (forget a) n r.trace.scored.toList)
    (B := fun r' => Growing s.evaluator (forget a) n r.trace.scored.toList r' ∧
      ∃ fp k, r'.graph.Knows fp k) (fun hno _ ha => absurd ha hno) (fun hd k r₁ hf => ?_)
    (fun start k r₂ r₃ h₂ _ hq => ?_) (fun r₂ h₂ hne => ?_)
    fun start r₂ h₂ => finish_returned hroot h₂.1 h₂.2
  · refine (beamRounds_rule (J := Frontier s.evaluator (forget a) r.trace.scored.toList)
      (fun _ _ _ _ h hq => h.quiet hq)
      (fun i frontier r₂ k hi h₂ => (beamRound_grows hroot hr (by omega) h₂).imp_ok
        fun _ _ h => h.2)
      p.steps.toNat (Nat.zero_add _) (frontier_root hr hf)).imp ?_ fun _ _ h => h.blamed
    rintro _ r₂ ⟨i, _, hi, ⟨h₂, -⟩, -⟩
    exact h₂.mono (by omega)
  · refine (expand_grows hroot (h₂.quiet hq) (ready_root hr) (Nat.zero_le _) ?_).imp ?_
      fun _ _ h => h.blamed
    · rw [hr]
      exact Nat.zero_le _
    · rintro _ r₄ ⟨h₄, -⟩
      exact ⟨h₄.growing, _, _,
        h₄.trail _ _ List.prefix_rfl (ready_root hr (g := r₄.graph)).replays⟩
  · obtain ⟨fp, m, hm⟩ := Graph.isEmpty_eq_false hne
    exact ⟨h₂, fp, _, m, hm, le_rfl⟩

theorem randomSearch_ends (p : RandomParams) (hw : World a n) (hn : p.steps.toNat ≤ n) :
    Ends (randomSearch s c a p) r
      (fun t r' => Returned s.evaluator (forget a) n r.trace.scored.toList t r')
      (Blamed s.evaluator a n (c.Allows p.steps)) := by
  obtain ⟨hroot, hr⟩ := hw.forgotten
  have hquiet : ∀ {r₁ r₂ : Run α},
      (Growing s.evaluator (forget a) n r.trace.scored.toList r₁ ∧ ∃ fp k, r₁.graph.Knows fp k) →
      Quiet r₁ r₂ →
      Growing s.evaluator (forget a) n r.trace.scored.toList r₂ ∧ ∃ fp k, r₂.graph.Knows fp k :=
    fun ⟨h, fp, k, hk⟩ hq => ⟨h.quiet hq, fp, k, hq.grows.knows hk⟩
  refine randomSearch_rule (fun hno _ ha => absurd ha hno) (fun hd start r₁ hf => ?_) hquiet
    fun start r₂ h₂ => finish_returned hroot h₂.1 h₂.2
  refine randomWalks_rule (fun h hq => h.quiet hq) hquiet And.left (fun {q r₂} h => ?_) _ 0
    (growing_fresh hf)
  refine (expand_grows hroot h (ready_root hr) hd ?_).imp ?_ fun _ _ h => h.blamed
  · rw [hr, List.length_nil]
    omega
  · rintro _ r₃ ⟨h₃, -⟩
    exact ⟨h₃.growing, _, _,
      h₃.trail _ _ List.prefix_rfl (ready_root hr (g := r₃.graph)).replays⟩

/-! ## The best of several walks -/

section
variable {ev : ε} {t t' : Table} {r' : Run α}

theorem Returned.quiet (h : Returned ev root n before t r) (hq : Quiet r r') :
    Returned ev root n before t r' where
  sound := h.sound
  highest hst := by
    obtain ⟨new, last, hnew, hlast⟩ := h.highest hst
    exact ⟨new, last, by rw [hq.scored, hnew], hlast⟩

/-- Of two tables, the one with the higher final reward is the best of both logs. -/
theorem Returned.better (h : Returned ev root n before t r)
    (h' : Returned ev root n r.trace.scored.toList t' r') :
    Returned ev root n before (if walkReward t < walkReward t' then t' else t) r' where
  sound := by
    split
    exacts [h'.sound, h.sound]
  highest hst := by
    obtain ⟨new, last, hnew, hlast⟩ := h.highest hst
    obtain ⟨new', last', hnew', hlast'⟩ := h'.highest hst
    obtain ⟨_, -, hx⟩ := hlast.asked
    obtain ⟨_, -, hx'⟩ := hlast'.asked
    have hn := FloatOrder.not_isNaN hx.finite
    have hn' := FloatOrder.not_isNaN hx'.finite
    have hlt : walkReward t < walkReward t' ↔ last < last' := by
      rw [walkReward, walkReward, hlast.last_eq, hlast'.last_eq, Option.getD_some, Option.getD_some]
    have hlog : r'.trace.scored.toList = before ++ (new ++ new') := by
      rw [hnew', hnew, List.append_assoc]
    by_cases hl : last < last'
    · rw [if_pos (hlt.2 hl)]
      exact ⟨_, last', hlog, hlast.append_right hlast' (FloatOrder.le_of_lt hn hn' hl)⟩
    · rw [if_neg (hlt.not.2 hl)]
      exact ⟨_, last, hlog, hlast.append_left hlast' ((FloatOrder.not_lt_iff hn hn').1 hl)⟩

end

theorem greedyWalksFrom_ends (p : GreedyParams) (hw : World a n) (hn : p.steps.toNat ≤ n)
    (before : List (Scored α)) : ∀ (k walk : Nat) (best : Option Table) {r : Run α},
    (best = none → k ≠ 0 ∧ r.trace.scored.toList = before) →
    (∀ t, best = some t → Returned s.evaluator (forget a) n before t r) →
    Ends (greedyWalksFrom s c a p k walk best) r
      (fun t r' => Returned s.evaluator (forget a) n before t r')
      (Blamed s.evaluator a n (c.Allows p.steps ∧ c.Allows p.lookahead))
  | 0, walk, none, r, hnone, _ => absurd rfl (hnone rfl).1
  | 0, walk, some t, r, _, hsome => hsome t rfl
  | k + 1, walk, best, r, hnone, hsome => by
    refine Ends.bind (greedySearch_ends p hw hn) fun table r₁ h₁ => ?_
    refine Ends.bind (report_ends _) fun _ r₂ hq₂ => ?_
    have h₂ := h₁.quiet hq₂
    cases best with
    | none =>
      refine greedyWalksFrom_ends p hw hn before k (walk + 1) _ (fun h => ?_) fun t ht => ?_
      · cases h
      · cases ht
        rwa [(hnone rfl).2] at h₂
    | some t =>
      have hbest := (hsome t rfl).better h₂
      refine greedyWalksFrom_ends p hw hn before k (walk + 1) _ (fun h => ?_) fun t' ht => ?_
      · dsimp only at h
        split at h <;> cases h
      · dsimp only at ht
        split at ht <;> cases ht
        · next hlt => rwa [if_pos (of_decide_eq_true hlt)] at hbest
        · next hlt => rwa [if_neg (of_decide_eq_false (Bool.eq_false_iff.2 hlt))] at hbest

/-! ## Two phases -/

section
variable {ev : ε} {t next : Table} {mid : α} {m₁ m₂ : Nat} {r' : Run α}

theorem Sound.concat (h : Sound ev (forget a) m₁ t) (hmid : Replays (forget a) t.path mid)
    (h' : Sound ev (forget mid) m₂ next) (hf : Forgetful ev a n) (hn : m₁ + m₂ ≤ n)
    (offset : Float) : Sound ev (forget a) n (t.concat next offset) := by
  have hfull := h.full.concat h'.full offset
  obtain ⟨-, hpath⟩ := h.full.path_concat h'.full offset
  have hw₁ : Within (forget a) m₁ mid := hmid.within h.length_le
  have hw : Within a n mid := (Within.trans (.forget (.start (n := 0))) hw₁).mono (by omega)
  obtain ⟨b, hb⟩ := h'.replays
  have := h.length_le
  have := h'.length_le
  refine ⟨hfull.actions_eq, hfull.rewards_eq, hfull.times_le, ?_, ?_, fun hst => ?_⟩
  · rw [hpath, List.length_append]
    omega
  · obtain ⟨d, hd, -⟩ := hf hw hb
    rw [hpath]
    exact ⟨d, replays_append.2 ⟨mid, hmid, hd⟩⟩
  · rw [hpath, h.full.rewards_concat h'.full offset]
    have h₁ := h.rewarded (hst.sub .start (by omega : 0 + m₁ ≤ n))
    have h₂ := h'.rewarded (hst.sub (.forget hw₁) hn)
    exact h₁.append hmid (h₂.remember hf hw hb)

theorem getLast?_append_drop_one {l : List Float} {y : Float} (h : l.getLast? = some y)
    (ys : List Float) : (l ++ (y :: ys).drop 1).getLast? = (y :: ys).getLast? := by
  cases ys with
  | nil => simpa using h
  | cons z zs =>
    rw [List.drop_one, List.tail_cons, List.getLast?_append_cons, List.getLast?_cons_cons]

/-- The second phase starts from the best state of the first, so it ends with the
    highest score of both. -/
theorem Returned.concat (h : Returned ev (forget a) m₁ before t r)
    (hmid : Replays (forget a) t.path mid)
    (h' : Returned ev (forget mid) m₂ r.trace.scored.toList next r') (hf : Forgetful ev a n)
    (hn : m₁ + m₂ ≤ n) (offset : Float) :
    Returned ev (forget a) n before (t.concat next offset) r' where
  sound := h.sound.concat hmid h'.sound hf hn offset
  highest hst := by
    have hst₁ := hst.sub .start (by omega : 0 + m₁ ≤ n)
    have hw₁ : Within (forget a) m₁ mid := hmid.within h.sound.length_le
    have hw : Within a n mid := (Within.trans (.forget (.start (n := 0))) hw₁).mono (by omega)
    have hst₂ := hst.sub (.forget hw₁) hn
    obtain ⟨new, last, hnew, hlast⟩ := h.highest hst₁
    obtain ⟨new', last', hnew', hlast'⟩ := h'.highest hst₂
    have hrewards := h.sound.full.rewards_concat h'.sound.full offset
    obtain ⟨y, ys, hy⟩ : ∃ y ys, next.rewards = y :: ys :=
      List.exists_cons_of_length_eq_add_one h'.sound.rewards_eq
    -- the first reward of the second phase is the last one of the first
    have hfirst : y = last := by
      have hy' : Scores ev (forget mid) y :=
        (h'.sound.rewarded hst₂).scores (i := 0) (by rw [hy]; rfl) (replays_nil.2 rfl)
      obtain ⟨d, hd, hs⟩ := hf hw (replays_nil.2 rfl)
      obtain rfl := replays_nil.1 hd
      exact hst.unique (hw₁.mono (by omega)) ((hs y).2 hy')
        ((h.sound.rewarded hst₁).getLast? hmid hlast.last_eq)
    have hle : last ≤ last' := by
      rw [← hfirst]
      exact hlast'.rewards y (by rw [hy]; exact List.mem_cons_self)
    have hboth := hlast.append_right hlast' hle
    refine ⟨new ++ new', last', by rw [hnew', hnew, List.append_assoc], ?_, hboth.asked,
      hboth.others, fun x hx => ?_⟩
    · have hl := hlast.last_eq
      rw [Table.finalReward?, ← hfirst] at hl
      rw [Table.finalReward?, hrewards, hy, getLast?_append_drop_one hl, ← hy]
      exact hlast'.last_eq
    · rw [hrewards] at hx
      rcases List.mem_append.1 hx with hx | hx
      · exact FloatOrder.trans (hlast.rewards x hx) hle
      · exact hlast'.rewards x (List.mem_of_mem_drop hx)

end

theorem beamBeam_ends (first second : BeamPhase) (hw : World a n)
    (hn : first.steps.toNat + second.steps.toNat ≤ n) :
    Ends (beamBeam s c a first second) r
      (fun t r' => Forgetful s.evaluator a n →
        Returned s.evaluator (forget a) n r.trace.scored.toList t r')
      (Blamed s.evaluator a n (c.Allows first.steps ∧ c.Allows second.steps)) := by
  unfold beamBeam
  dsimp only
  have hw₁ : World a first.steps.toNat := hw.sub .start (by omega : 0 + first.steps.toNat ≤ n)
  refine Ends.bind ((beamDfs_ends first.params hw₁ le_rfl).imp_error
    fun _ _ h ha hA => ?_) fun phase r₁ h₁ => ?_
  · exact (h ha.1 (hA.sub .start (by omega : 0 + first.steps.toNat ≤ n))).imp fun _ hb =>
      hb.mono (by omega)
  obtain ⟨mid, hmid⟩ := h₁.sound.replays
  refine Ends.bind (replayed_ok hmid) ?_
  rintro mid r₁ ⟨rfl, rfl⟩
  refine Ends.bind (report_ends _) fun _ r₂ hq₂ => ?_
  have hwm : Within a first.steps.toNat mid :=
    (Within.trans (.forget (.start (n := 0))) (hmid.within h₁.sound.length_le)).mono (by omega)
  have hw₂ : World mid second.steps.toNat := hw.sub hwm hn
  refine Ends.bind ((beamDfs_ends second.params hw₂ le_rfl).imp_error
    fun _ _ h ha hA => ?_) fun next r₃ h₃ => ends_pure.2 fun hf => ?_
  · exact (h ha.2 (hA.sub hwm hn)).imp fun _ hb => (hwm.trans hb).mono hn
  · rw [hq₂.scored] at h₃
    exact h₁.concat hmid h₃ hf hn _

/-! ## All strategies -/

/-- The counts that a strategy is asked for. -/
def Strategy.counts : Strategy → List Int
  | .greedy p | .greedyWalks _ p => [p.steps, p.lookahead]
  | .beamDfs p | .beamBfs p => [p.steps]
  | .beamBeam first second => [first.steps, second.steps]
  | .random p => [p.steps]

/-- The number of actions that a strategy may take. -/
def Strategy.budget : Strategy → Nat
  | .greedy p | .greedyWalks _ p => p.steps.toNat
  | .beamDfs p | .beamBfs p => p.steps.toNat
  | .beamBeam first second => first.steps.toNat + second.steps.toNat
  | .random p => p.steps.toNat

/-- **Every strategy** returns a sound table with the highest score, or blames the
    evaluator. -/
theorem runStrategy_ends (st : Strategy) (hw : World a st.budget) :
    Ends (runStrategy s c a st) r
      (fun t r' => Forgetful s.evaluator a st.budget →
        Returned s.evaluator (forget a) st.budget r.trace.scored.toList t r')
      (Blamed s.evaluator a st.budget (∀ k ∈ st.counts, c.Allows k)) := by
  cases st with
  | greedy p =>
    refine (greedySearch_ends p hw le_rfl).imp (fun _ _ h _ => h) fun _ _ h ha => h ?_
    exact ⟨ha _ (by simp [Strategy.counts]), ha _ (by simp [Strategy.counts])⟩
  | greedyWalks walks p =>
    refine (greedyWalksFrom_ends p hw le_rfl _ (max walks 1) 0 none (fun _ => ⟨by omega, rfl⟩)
      (fun _ h => by cases h)).imp (fun _ _ h _ => h) fun _ _ h ha => h ?_
    exact ⟨ha _ (by simp [Strategy.counts]), ha _ (by simp [Strategy.counts])⟩
  | beamDfs p =>
    exact (beamDfs_ends p hw le_rfl).imp (fun _ _ h _ => h) fun _ _ h ha =>
      h (ha _ (by simp [Strategy.counts]))
  | beamBfs p =>
    exact (beamBfs_ends p hw le_rfl).imp (fun _ _ h _ => h) fun _ _ h ha =>
      h (ha _ (by simp [Strategy.counts]))
  | beamBeam first second =>
    refine (beamBeam_ends first second hw le_rfl).imp_error fun _ _ h ha => h ?_
    exact ⟨ha _ (by simp [Strategy.counts]), ha _ (by simp [Strategy.counts])⟩
  | random p =>
    exact (randomSearch_ends p hw le_rfl).imp (fun _ _ h _ => h) fun _ _ h ha =>
      h (ha _ (by simp [Strategy.counts]))

/-- In the up/down world every strategy of two actions returns a table. -/
theorem UpDown.runStrategy_ok {s : Setting UpDownEvaluator} {r : Run UpDown} (st : Strategy)
    (hb : st.budget = 2) (hc : ∀ k ∈ st.counts, c.Allows k) :
    ∃ t r', runStrategy s c UpDown.start st r = .ok t r' := by
  have hends := runStrategy_ends (s := s) (c := c) (r := r) st (hb ▸ UpDown.world)
  rcases hends.result with ⟨t, r', h, -⟩ | ⟨e, r', -, he⟩
  · exact ⟨t, r', h⟩
  · have := he hc (hb ▸ UpDown.accepting)
    rw [hb] at this
    exact absurd this UpDown.not_blames

end ScheduleSearch

/-
  Stage by level or depth first.

  A level-by-level beam expands the leaves of its graph, which are the states at the
  current distance and those before it without candidates; it rebuilds each by its
  recorded actions, and never goes through a state again.  After every round the graph
  holds what lies within so many steps of the root (`Maps.level`), and that is what a
  depth-first beam of this depth adds to a fresh graph (`explore_adds`).

  **`beamBfs_beamDfs`**: so both build the same graph, and find the same final reward.
-/
import ScheduleSearch.Proofs.Exploration
import ScheduleSearch.Proofs.Strategies

namespace ScheduleSearch

open Agent SearchM

variable {α ε : Type} [Agent α] [Evaluator ε α]

/-! ## One level -/

section
variable {C : α → String → Prop} {root b c d : α} {i k n : Nat} {x : String} {fp : Fingerprint}
  {t : Transition} {g g' : Graph} {frontier : List α}

/-- The dump of a state determines its candidates. -/
def Respects (C : α → String → Prop) (root : α) (n : Nat) : Prop :=
  ∀ b c x, Within root n b → Within root n c → dump b = dump c → C b x → C c x

theorem Respects.moves (hC : Respects C root n) (hw : World root n) (hb : Within root n b) (hc : Within root n c)
    (hfp : fingerprint b = fingerprint c) (hx : C b x) (hm : Moves b x d) :
    C c x ∧ ∃ e, Moves c x e ∧ fingerprint e = fingerprint d := by
  have hd := hw.distinct hb hc hfp
  obtain ⟨e, he, hde⟩ := hw.congr hb hc hd hm
  exact ⟨hC b c x hb hc hd hx, e, he, (World.fingerprint_congr hde).symm⟩

theorem reaches_one (hw : World root n) (hb : Within root n b) : Reaches C b 1 fp k ↔
    fingerprint b = fp ∧ (history b).length ≤ k ∨
      ∃ x c, C b x ∧ Moves b x c ∧ fingerprint c = fp ∧ (history b).length + 1 ≤ k := by
  have hh : ∀ {x c}, Moves b x c → (history c).length = (history b).length + 1 := fun hm => by
    rw [hw.appends hb hm, List.length_append]
    rfl
  rw [reaches_succ hh]
  refine or_congr_right (exists_congr fun x => exists_congr fun c => and_congr_right fun _ =>
    and_congr_right fun hm => ?_)
  rw [reaches_zero, hh hm]

theorem crosses_one : Crosses C b 1 t ↔
    ∃ x c, C b x ∧ Moves b x c ∧ t = ⟨fingerprint b, fingerprint c, x⟩ := by
  rw [crosses_succ]
  simp only [not_crosses_zero, or_false]

theorem Walk.within_root (h : Walk C root k b) (hk : k ≤ n) : Within root n b :=
  (h.within (.start (n := 0))).mono (by omega)

section
variable (h : Maps C root i g) (hr : history root = [])
include h hr

/-- A state of the frontier lies at the distance that its recorded actions have. -/
theorem Maps.rebuilt (hl : ∃ m ∈ g.leaves, Rebuilt root g m b) :
    Within root i b ∧ (history b).length ≤ i ∧
      ∃ b', Walk C root (history b).length b' ∧ fingerprint b' = fingerprint b := by
  obtain ⟨m, hm, hbm⟩ := hl
  have hnode := (h.wired.mem_leaves.1 hm).1
  obtain ⟨⟨b', hb', hfp⟩, hmin⟩ := h.isLeast hr hnode
  obtain ⟨j, d, hj, hd, hfpd⟩ := (h.known hr).1 ⟨m, hnode⟩
  have hle : (history b).length ≤ i := by
    rw [hbm.history_eq]
    exact (hmin ⟨d, hd, hfpd⟩).trans hj
  refine ⟨hbm.ready.replays.within hle, hle, b', ?_, hfp.trans hbm.fingerprint_eq.symm⟩
  rwa [hbm.history_eq]

/-- A state at the current distance is in the frontier, unless it is nearer. -/
theorem Maps.leaf_or_nearer (hl : ∀ m ∈ g.leaves, ∃ b ∈ frontier, Rebuilt root g m b)
    (hb : Walk C root i b) :
    (∃ b' ∈ frontier, fingerprint b' = fingerprint b ∧ (history b').length ≤ i) ∨
      ∃ j b', j < i ∧ Walk C root j b' ∧ fingerprint b' = fingerprint b := by
  obtain ⟨m, hm, hle⟩ := (h.knows (fingerprint b) i).2
    ((reaches_root hr).2 ⟨i, b, le_rfl, hb, rfl, le_rfl⟩)
  have hkey := h.wired.keyed hm
  by_cases hleaf : ∀ t ∈ g.transitions, t.source ≠ m.fingerprint
  · obtain ⟨b', hb', hbm⟩ := hl m (h.wired.mem_leaves.2 ⟨by rw [hkey]; exact hm, hleaf⟩)
    exact .inl ⟨b', hb', hbm.fingerprint_eq.trans hkey, by rw [hbm.history_eq]; exact hle⟩
  · push Not at hleaf
    obtain ⟨t, ht, hsrc⟩ := hleaf
    obtain ⟨j, c, x, d, hj, hc, -, -, rfl⟩ := (h.transitions t).1 ht
    exact .inr ⟨j, c, hj, hc, hsrc.trans hkey⟩

end

section
variable (h : Maps C root i g) (hr : history root = []) (hw : World root n)
  (hC : Respects C root n) (hi : i < n) (hl : ∀ b ∈ frontier, ∃ m ∈ g.leaves, Rebuilt root g m b)
  (hl' : ∀ m ∈ g.leaves, ∃ b ∈ frontier, Rebuilt root g m b)
include h hr hw hC hi hl hl'

/-- The states of the next level lie behind those of the frontier. -/
theorem Maps.reaches_level : Reaches C root (i + 1) fp k ↔
    Reaches C root i fp k ∨ ∃ b ∈ frontier, Reaches C b 1 fp k := by
  have hfr : ∀ b ∈ frontier, Within root n b := fun b hb => (h.rebuilt hr (hl b hb)).1.mono hi.le
  rw [reaches_root hr, reaches_root hr]
  constructor
  · rintro ⟨j, c, hj, hc, hfp, hk⟩
    rcases Nat.lt_or_ge i j with hij | hij
    · obtain rfl : j = i + 1 := by omega
      obtain ⟨b, x, hb, hx, hm⟩ := hc.last
      rcases h.leaf_or_nearer hr hl' hb with ⟨b', hbf, hfpb, hle⟩ | ⟨j', b', hj', hb', hfpb⟩
      · obtain ⟨hx', e, he, hfpe⟩ := hC.moves hw (hb.within_root hi.le) (hfr b' hbf)
          hfpb.symm hx hm
        exact .inr ⟨b', hbf, (reaches_one hw (hfr b' hbf)).2
          (.inr ⟨x, e, hx', he, hfpe.trans hfp, by omega⟩)⟩
      · obtain ⟨hx', e, he, hfpe⟩ := hC.moves hw (hb.within_root hi.le)
          (hb'.within_root (by omega)) hfpb.symm hx hm
        exact .inl ⟨j' + 1, e, by omega, hb'.concat hx' he, hfpe.trans hfp, by omega⟩
    · exact .inl ⟨j, c, hij, hc, hfp, hk⟩
  · rintro (⟨j, b, hj, hb, hfp, hk⟩ | ⟨b, hbf, hreach⟩)
    · exact ⟨j, b, by omega, hb, hfp, hk⟩
    · obtain ⟨-, hle, b', hb', hfp'⟩ := h.rebuilt hr (hl b hbf)
      rcases (reaches_one hw (hfr b hbf)).1 hreach with ⟨hfp, hk⟩ | ⟨x, c, hx, hm, hfp, hk⟩
      · exact ⟨_, b', by omega, hb', hfp'.trans hfp, hk⟩
      · obtain ⟨hx', e, he, hfpe⟩ := hC.moves hw (hfr b hbf) (hb'.within_root (by omega))
          hfp'.symm hx hm
        exact ⟨_, e, by omega, hb'.concat hx' he, hfpe.trans hfp, hk⟩

theorem Maps.crosses_level : Crosses C root (i + 1) t ↔
    Crosses C root i t ∨ ∃ b ∈ frontier, Crosses C b 1 t := by
  have hfr : ∀ b ∈ frontier, Within root n b := fun b hb => (h.rebuilt hr (hl b hb)).1.mono hi.le
  constructor
  · rintro ⟨j, b, x, c, hj, hb, hx, hm, rfl⟩
    rcases Nat.lt_or_ge j i with hij | hij
    · exact .inl ⟨j, b, x, c, hij, hb, hx, hm, rfl⟩
    · obtain rfl : j = i := by omega
      rcases h.leaf_or_nearer hr hl' hb with ⟨b', hbf, hfpb, hle⟩ | ⟨j', b', hj', hb', hfpb⟩
      · obtain ⟨hx', e, he, hfpe⟩ := hC.moves hw (hb.within_root hi.le) (hfr b' hbf)
          hfpb.symm hx hm
        exact .inr ⟨b', hbf, crosses_one.2 ⟨x, e, hx', he, by rw [hfpb, hfpe]⟩⟩
      · obtain ⟨hx', e, he, hfpe⟩ := hC.moves hw (hb.within_root hi.le)
          (hb'.within_root (by omega)) hfpb.symm hx hm
        exact .inl ⟨j', b', x, e, hj', hb', hx', he, by rw [hfpb, hfpe]⟩
  · rintro (⟨j, b, x, c, hj, hb, hx, hm, rfl⟩ | ⟨b, hbf, hcross⟩)
    · exact ⟨j, b, x, c, by omega, hb, hx, hm, rfl⟩
    · obtain ⟨x, c, hx, hm, rfl⟩ := crosses_one.1 hcross
      obtain ⟨-, hle, b', hb', hfp'⟩ := h.rebuilt hr (hl b hbf)
      obtain ⟨hx', e, he, hfpe⟩ := hC.moves hw (hfr b hbf) (hb'.within_root (by omega))
        hfp'.symm hx hm
      exact ⟨_, b', x, e, by omega, hb', hx', he, by rw [hfp', hfpe]⟩

/-- **One level**: expanding the leaves by a step takes the graph one step further. -/
theorem Maps.level (hadd : Adds g g' (fun fp k => ∃ b ∈ frontier, Reaches C b 1 fp k)
    fun t => ∃ b ∈ frontier, Crosses C b 1 t) : Maps C root (i + 1) g' where
  wired := hadd.wired h.wired
  knows fp k := by rw [hadd.knows, h.knows, h.reaches_level hr hw hC hi hl hl']
  transitions t := by rw [hadd.transitions, h.transitions, h.crosses_level hr hw hC hi hl hl']

end

end

/-! ## Time -/

/-- No two readings of the clock are as far apart as the time. -/
def Clock.Keeps (clock : Clock) (time : Duration) : Prop :=
  ∀ i j, clock.reading j < clock.reading i + time.nanoseconds

theorem Clock.Keeps.unhurried {s : Setting ε} {p : BeamParams} {time : Duration} {start k : Nat}
    (h : s.clock.Keeps time) : Unhurried s (p.settings s.clock start k time) := by
  intro deadline hd i
  have hd : deadlineAfter (s.clock.reading k) time = some deadline := hd
  unfold deadlineAfter at hd
  dsimp only at hd
  split at hd
  · cases hd
    exact h k i
  · cases hd

theorem SearchConfig.roundBudget_le (c : SearchConfig) (rounds : Nat) :
    (c.roundBudget rounds).nanoseconds ≤ c.timeout.nanoseconds :=
  Nat.div_le_self _ _

/-! ## Rounds -/

section
variable {s : Setting ε} {c : CheckedConfig} {p : BeamParams} {root a : α} {n i : Nat}
  {before : List (Scored α)} {r r' : Run α} {frontier : List α}

theorem frontier_adds {p : ExpandParams} (hw : World root n)
    (hs : Settled s.evaluator root n p.width p.mode p.ranking) (hp : Unhurried s p)
    (hi : i < n) (hb : ∀ b ∈ frontier, Within root i b) :
    Ends (frontier.forM fun b => discard (expand s p b 1)) r
      (fun _ r' => Adds r.graph r'.graph
        (fun fp k => ∃ b ∈ frontier,
          Reaches (Candidate s.evaluator p.width p.mode p.ranking) b 1 fp k)
        fun t => ∃ b ∈ frontier, Crosses (Candidate s.evaluator p.width p.mode p.ranking) b 1 t)
      (fun _ _ => True) := by
  refine ends_forM (fun done r' => Adds r.graph r'.graph
    (fun fp k => ∃ b ∈ done, Reaches (Candidate s.evaluator p.width p.mode p.ranking) b 1 fp k)
    fun t => ∃ b ∈ done, Crosses (Candidate s.evaluator p.width p.mode p.ranking) b 1 t)
    frontier [] ?_ fun b hbf done r₁ h₁ => ?_
  · exact (Adds.refl _).congr (fun _ _ => by simp) fun _ => by simp
  · refine (Ends.discard (expand_ends (show 1 ≤ depthCeiling by decide)
      (explore_adds hw hs hp 1 (hb b hbf) hi))).imp_ok ?_
    rintro _ r₂ ⟨_, h₂, -⟩
    refine (h₁.trans h₂).congr (fun fp k => ?_) fun t => ?_
    · simp only [List.mem_append, List.mem_singleton, or_and_right, exists_or, exists_eq_left]
    · simp only [List.mem_append, List.mem_singleton, or_and_right, exists_or, exists_eq_left]

/-- After `i` rounds the graph holds what lies within `i` steps, and the frontier are
    its leaves; before the first it is empty. -/
structure Stage (ev : ε) (C : α → String → Prop) (root : α) (before : List (Scored α)) (i : Nat)
    (frontier : List α) (r : Run α) : Prop where
  grown : Frontier ev root before i frontier r
  maps : (i = 0 ∧ frontier = [root] ∧ ∃ seed, (Graph.empty seed).Like r.graph) ∨
    (0 < i ∧ Maps C root i r.graph ∧
      (∀ b ∈ frontier, ∃ m ∈ r.graph.leaves, Rebuilt root r.graph m b) ∧
      ∀ m ∈ r.graph.leaves, ∃ b ∈ frontier, Rebuilt root r.graph m b)

theorem Maps.like {C : α → String → Prop} {g : Graph} (h : Maps C root i g) (sampler : Sampler) :
    Maps C root i { g with sampler } :=
  ⟨h.wired.like _ sampler, h.knows, h.transitions⟩

theorem Stage.quiet {C : α → String → Prop} (h : Stage s.evaluator C root before i frontier r)
    (hq : Quiet r r') : Stage s.evaluator C root before i frontier r' where
  grown := h.grown.quiet hq
  maps := by
    obtain ⟨σ, hσ⟩ := hq.graph
    have hreb : ∀ m b, Rebuilt root r.graph m b → Rebuilt root r'.graph m b := fun m b hb =>
      ⟨hb.history_eq, hb.fingerprint_eq, hb.ready.grow hq.grows⟩
    rcases h.maps with ⟨hi, hf, seed, σ', hg⟩ | ⟨hi, hm, hl, hl'⟩
    · exact .inl ⟨hi, hf, seed, σ, by rw [hσ, hg]⟩
    · refine .inr ⟨hi, by rw [hσ]; exact hm.like σ, fun b hb => ?_, fun m hm => ?_⟩
      · obtain ⟨m, hm, hbm⟩ := hl b hb
        exact ⟨m, by rw [hσ]; exact hm, hreb m b hbm⟩
      · rw [hσ] at hm
        obtain ⟨b, hb, hbm⟩ := hl' m hm
        exact ⟨b, hb, hreb m b hbm⟩

theorem beamRound_stage {p : ExpandParams} (hw : World root n) (hr : history root = [])
    (hs : Settled s.evaluator root n p.width p.mode p.ranking)
    (hC : Respects (Candidate s.evaluator p.width p.mode p.ranking) root n)
    (hp : Unhurried s p) (hi : i < n)
    (h : Stage s.evaluator (Candidate s.evaluator p.width p.mode p.ranking) root before i frontier
      r) :
    Ends (frontier.forM fun b => discard (expand s p b 1)) r
      (fun _ r' => Ends (r'.graph.leaves.mapM fun m => replayed root m.actions) r'
        (Stage s.evaluator (Candidate s.evaluator p.width p.mode p.ranking) root before (i + 1))
        fun _ _ => True)
      (fun _ _ => True) := by
  have hb : ∀ b ∈ frontier, Within root i b := fun b hb =>
    (h.grown.2 b hb).1.replays.within (h.grown.2 b hb).2
  refine ((beamRound_grows hw hr hi h.grown).and (frontier_adds hw hs hp hi hb)).imp ?_
    fun _ _ _ => trivial
  rintro _ r₁ ⟨⟨h₁, hnext⟩, hadd⟩
  refine ((hnext.imp_error fun _ _ _ => trivial).and
    (leaves_ends (E := fun _ _ => True) (hw.sub .start (by omega : 0 + (i + 1) ≤ n)) hr
      h₁.grown)).imp ?_ fun _ _ h => h.1
  rintro next r₂ ⟨hf, rfl, hl, hl'⟩
  refine ⟨hf, .inr ⟨Nat.succ_pos i, ?_, hl, hl'⟩⟩
  rcases h.maps with ⟨rfl, rfl, seed, hg⟩ | ⟨-, hm, hlf, hlf'⟩
  · refine Adds.maps hg (hadd.congr (fun fp k => ?_) fun t => ?_)
    · simp
    · simp
  · exact hm.level hr hw hC hi hlf hlf' hadd

/-! ## Searches -/

/-- A table of the best state of a graph that holds what lies within `n` steps. -/
def Mapped (ev : ε) (C : α → String → Prop) (root : α) (n : Nat) (t : Table) (r : Run α) : Prop :=
  ∃ g, Maps C root n g ∧ Grown ev root n g ∧ g.Remarked r.graph ∧
    ∃ best, g.bestNode? = some best ∧ t.finalReward? = some best.score

theorem finish_mapped {C : α → String → Prop} {strategy : String} {start : Nat}
    {E : SearchError → Run α → Prop} (hr : history root = []) (hm : Maps C root n r.graph)
    (h : Grown s.evaluator root n r.graph) :
    Ends (finish s c strategy start) r (fun t r' => Mapped s.evaluator C root n t r') E := by
  have hn := (hm.known hr).2 ⟨0, root, Nat.zero_le _, .stay, rfl⟩
  refine (finish_ends h.wired (fun _ _ hm => (h.node hm).entered) ⟨_, hn⟩).imp_ok ?_
  rintro t r' ⟨-, hmark, best, ns, xs, hbest, -, rfl⟩
  exact ⟨r.graph, hm, h, hmark, best, hbest, by simp [Table.finalReward?]⟩

/-- An expansion of a fresh graph finds what lies within its depth. -/
theorem expand_maps {p : ExpandParams} {seed : UInt64} {before : List (Scored α)}
    (hw : World root n) (hr : history root = [])
    (hs : Settled s.evaluator root n p.width p.mode p.ranking) (hp : Unhurried s p)
    (hd : n ≤ depthCeiling) (hfresh : (Graph.empty seed).Like r.graph)
    (h : Growing s.evaluator root n before r) :
    Ends (expand s p root n) r
      (fun _ r' => Maps (Candidate s.evaluator p.width p.mode p.ranking) root n r'.graph ∧
        Grown s.evaluator root n r'.graph)
      (fun _ _ => True) := by
  have hgrows := expand_grows (p := p) hw h (ready_root hr) hd
    (by rw [hr, List.length_nil]; omega)
  refine ((expand_ends hd (explore_adds hw hs hp n .start (Nat.zero_add n).le)).and hgrows).imp ?_
    fun _ _ _ => trivial
  rintro _ r' ⟨⟨hadd, -⟩, hex, -⟩
  exact ⟨hadd.maps hfresh, hex.growing.grown⟩

variable (hw : World a n) (hs : Settled s.evaluator a n p.width p.mode p.ranking)
include hw hs

theorem beamDfs_mapped (hn : p.steps.toNat = n) (ht : s.clock.Keeps c.timeout) :
    Ends (beamDfs s c a p) r
      (fun t r' => Mapped s.evaluator (Candidate s.evaluator p.width p.mode p.ranking) (forget a) n
        t r')
      (fun _ _ => True) := by
  subst hn
  obtain ⟨hroot, hr⟩ := hw.forgotten
  have hs' := hs.sub (.forget .start) (Nat.zero_add p.steps.toNat).le
  exact beamDfs_rule (P := fun r' => Maps (Candidate s.evaluator p.width p.mode p.ranking)
    (forget a) p.steps.toNat r'.graph ∧ Grown s.evaluator (forget a) p.steps.toNat r'.graph)
    (fun _ _ => trivial)
    (fun hd start k r₁ hf => expand_maps (p := p.settings s.clock start k c.timeout) hroot hr hs'
      ht.unhurried hd hf.graph (growing_fresh hf))
    fun start r₂ h₂ => finish_mapped hr h₂.1 h₂.2

theorem beamBfs_mapped (hC : Respects (Candidate s.evaluator p.width p.mode p.ranking) a n)
    (hn : p.steps.toNat = n) (ht : s.clock.Keeps (c.roundBudget p.steps.toNat)) :
    Ends (beamBfs s c a p) r
      (fun t r' => Mapped s.evaluator (Candidate s.evaluator p.width p.mode p.ranking) (forget a) n
        t r')
      (fun _ _ => True) := by
  subst hn
  obtain ⟨hroot, hr⟩ := hw.forgotten
  have hwithin : ∀ {b : α}, Within (forget a) p.steps.toNat b → Within a p.steps.toNat b :=
    fun hb => (Within.trans (.forget (.start (n := 0))) hb).mono (Nat.zero_add _).le
  have hs' := hs.sub (.forget .start) (Nat.zero_add p.steps.toNat).le
  have hC' : Respects (Candidate s.evaluator p.width p.mode p.ranking) (forget a) p.steps.toNat :=
    fun b d x hb hd => hC b d x (hwithin hb) (hwithin hd)
  refine beamBfs_rule
    (P := fun r' => ∃ frontier, Stage s.evaluator
      (Candidate s.evaluator p.width p.mode p.ranking) (forget a) r.trace.scored.toList
      p.steps.toNat frontier r')
    (B := fun r' => Maps (Candidate s.evaluator p.width p.mode p.ranking) (forget a)
      p.steps.toNat r'.graph ∧ Grown s.evaluator (forget a) p.steps.toNat r'.graph)
    (fun _ _ => trivial) (fun hd k r₁ hf => ?_) (fun start k r₂ r₃ h₂ hempty hq => ?_)
    (fun r₂ h₂ hfull => ?_) fun start r₂ h₂ => finish_mapped hr h₂.1 h₂.2
  · refine (beamRounds_rule (J := Stage s.evaluator
      (Candidate s.evaluator p.width p.mode p.ranking) (forget a) r.trace.scored.toList)
      (fun _ _ _ _ h hq => h.quiet hq)
      (fun i frontier r₂ k' hi h₂ => beamRound_stage
        (p := p.settings s.clock _ k' (c.roundBudget p.steps.toNat)) hroot hr hs' hC'
        ht.unhurried hi h₂)
      p.steps.toNat (Nat.zero_add _)
      ⟨frontier_root hr hf, .inl ⟨rfl, rfl, c.seed, hf.graph⟩⟩).imp_ok ?_
    rintro _ r₂ ⟨i, frontier, hi, h₂, htime⟩
    have hin : i = p.steps.toNat := htime fun j => by
      have := ht k j
      have := c.roundBudget_le p.steps.toNat
      omega
    exact ⟨frontier, hin ▸ h₂⟩
  · -- an empty graph means that there was no round
    obtain ⟨frontier, h₂⟩ := h₂
    rcases h₂.maps with ⟨h0, -, seed, hg⟩ | ⟨-, hm, -⟩
    · obtain ⟨σ, hσ⟩ := hg
      obtain ⟨σ', hσ'⟩ := hq.graph
      have h₃ := h₂.grown.1.quiet hq
      rw [h0] at hroot hs' h₃ ⊢
      exact expand_maps (p := p.settings s.clock start k (c.roundBudget p.steps.toNat)) hroot hr
        hs' ht.unhurried (Nat.zero_le _) ⟨σ', by rw [hσ', hσ]⟩ h₃
    · obtain ⟨m, hm⟩ := (hm.known hr).2 ⟨0, forget a, Nat.zero_le _, .stay, rfl⟩
      exact absurd hm (Graph.not_node?_of_isEmpty hempty)
  · obtain ⟨frontier, h₂⟩ := h₂
    rcases h₂.maps with ⟨-, -, seed, σ, hg⟩ | ⟨-, hm, -⟩
    · rw [hg] at hfull
      cases hfull
    · exact ⟨hm, h₂.grown.1.grown⟩

end

/-! ## Agreement -/

/-- The depth and the score of a node. -/
def Node.depthScore (m : Node) : Nat × Float := (m.depth, m.score)

section
variable {ev : ε} {C : α → String → Prop} {root : α} {n : Nat} {t t' : Table} {r r' : Run α}
  {g g' : Graph}

theorem Graph.Remarked.depthScore (h : g.Remarked g') (fp : Fingerprint) :
    (g'.node? fp).map Node.depthScore = (g.node? fp).map Node.depthScore := by
  have := congrArg (Option.map Node.depthScore) (h.nodes fp)
  rwa [Option.map_map, Option.map_map] at this

/-- Two graphs of the same extent have the same nodes, with the same scores. -/
theorem Maps.node?_eq (hw : World root n) (hst : SteadyScores ev root n) (hr : history root = [])
    (h : Maps C root n g) (hg : Grown ev root n g) (h' : Maps C root n g')
    (hg' : Grown ev root n g') {fp : Fingerprint} {m : Node} (hm : g.node? fp = some m) :
    ∃ m', g'.node? fp = some m' ∧ m'.depth = m.depth ∧ m'.score = m.score := by
  obtain ⟨m', hm'⟩ := (h'.known hr).2 ((h.known hr).1 ⟨m, hm⟩)
  refine ⟨m', hm', (h'.isLeast hr hm').unique (h.isLeast hr hm), ?_⟩
  obtain ⟨j, b, hj, hb, hfp⟩ := (h.known hr).1 ⟨m, hm⟩
  have hbn : Within root n b := hb.within_root hj
  have hkey := hg.wired.keyed hm
  have hkey' := hg'.wired.keyed hm'
  have hx := (hg.reached hw (by rw [hkey]; exact hm) hbn (hfp.trans hkey.symm)).1 hst
  have hx' := (hg'.reached hw (by rw [hkey']; exact hm') hbn (hfp.trans hkey'.symm)).1 hst
  exact hst.unique hbn hx' hx

theorem Mapped.agree (hw : World root n) (hst : SteadyScores ev root n) (hr : history root = [])
    (h : Mapped ev C root n t r) (h' : Mapped ev C root n t' r') :
    (∀ fp, (r.graph.node? fp).map Node.depthScore = (r'.graph.node? fp).map Node.depthScore) ∧
      (∀ e, e ∈ r.graph.edges.toList.map (·.toTransition) ↔
        e ∈ r'.graph.edges.toList.map (·.toTransition)) ∧
      ∃ x y, t.finalReward? = some x ∧ t'.finalReward? = some y ∧ x == y := by
  obtain ⟨g, hm, hg, hmark, best, hbest, hx⟩ := h
  obtain ⟨g', hm', hg', hmark', best', hbest', hx'⟩ := h'
  have hle : ∀ {g g' : Graph} {best best' : Node}, Maps C root n g → Grown ev root n g →
      Maps C root n g' → Grown ev root n g' → g.bestNode? = some best →
      g'.bestNode? = some best' → best.score ≤ best'.score :=
    fun {g g' best best'} hm hg hm' hg' hb hb' => by
      obtain ⟨fp, -, hnode⟩ := Option.bind_eq_some_iff.1 hb
      obtain ⟨m', hnode', -, hscore⟩ := hm.node?_eq hw hst hr hg hm' hg' hnode
      rw [← hscore]
      exact hg'.peak hst best' hb' fp m' hnode'
  refine ⟨fun fp => ?_, fun e => ?_, best.score, best'.score, hx, hx', ?_⟩
  · rw [hmark.depthScore, hmark'.depthScore]
    cases hnode : g.node? fp with
    | some m =>
      obtain ⟨m', hnode', hd, hs⟩ := hm.node?_eq hw hst hr hg hm' hg' hnode
      rw [hnode', Option.map_some, Option.map_some, Node.depthScore, Node.depthScore, hd, hs]
    | none =>
      cases hnode' : g'.node? fp with
      | none => rfl
      | some m' =>
        obtain ⟨m, hsome, -⟩ := hm'.node?_eq hw hst hr hg' hm hg hnode'
        rw [hnode] at hsome
        cases hsome
  · rw [hmark.edges, hmark'.edges, ← hm.wired.transitions, ← hm'.wired.transitions,
      hm.transitions, hm'.transitions]
  · obtain ⟨fp, -, hnode⟩ := Option.bind_eq_some_iff.1 hbest
    obtain ⟨fp', -, hnode'⟩ := Option.bind_eq_some_iff.1 hbest'
    exact FloatOrder.beq_of_le (FloatOrder.not_isNaN (hg.node hnode).finite)
      (FloatOrder.not_isNaN (hg'.node hnode').finite) (hle hm hg hm' hg' hbest hbest')
      (hle hm' hg' hm hg hbest' hbest)

end

/-- **Level by level and depth first** a beam builds the same graph: the same states,
    each with the same depth and score, and the same transitions; and it finds the
    same final reward, as numbers. -/
theorem beamBfs_beamDfs {ev : ε} {clock clock' : Clock} {c : CheckedConfig} {a : α}
    {p : BeamParams} {t t' : Table} {r₁ r₂ r r' : Run α} (hw : World a p.steps.toNat)
    (hst : SteadyScores ev a p.steps.toNat)
    (hs : Settled ev a p.steps.toNat p.width p.mode p.ranking)
    (hC : Respects (Candidate ev p.width p.mode p.ranking) a p.steps.toNat)
    (htime : clock.Keeps c.timeout) (htime' : clock'.Keeps (c.roundBudget p.steps.toNat))
    (h : beamDfs ⟨ev, clock⟩ c a p r₁ = .ok t r)
    (h' : beamBfs ⟨ev, clock'⟩ c a p r₂ = .ok t' r') :
    (∀ fp, (r.graph.node? fp).map Node.depthScore = (r'.graph.node? fp).map Node.depthScore) ∧
      (∀ e, e ∈ r.graph.edges.toList.map (·.toTransition) ↔
        e ∈ r'.graph.edges.toList.map (·.toTransition)) ∧
      ∃ x y, t.finalReward? = some x ∧ t'.finalReward? = some y ∧ x == y := by
  obtain ⟨hroot, hr⟩ := hw.forgotten
  have hm := (beamDfs_mapped (s := ⟨ev, clock⟩) hw hs rfl htime).ok h
  have hm' := (beamBfs_mapped (s := ⟨ev, clock'⟩) hw hs hC rfl htime').ok h'
  exact hm.agree hroot (hst.sub (.forget .start) (Nat.zero_add _).le) hr hm'

/-- Two steps of the up/down world, with a clock that stands still. -/
theorem beamBfs_beamDfs_upDown :
    ∃ t t' r r', beamDfs ⟨UpDownEvaluator.mk, ⟨fun _ => 0, 0⟩⟩ ⟨{}, by decide⟩ UpDown.start
        ⟨2, 2, .cost, true⟩ ⟨.empty 0, .empty⟩ = .ok t r ∧
      beamBfs ⟨UpDownEvaluator.mk, ⟨fun _ => 0, 0⟩⟩ ⟨{}, by decide⟩ UpDown.start
        ⟨2, 2, .cost, true⟩ ⟨.empty 0, .empty⟩ = .ok t' r' ∧
      ∃ x y, t.finalReward? = some x ∧ t'.finalReward? = some y ∧ x == y := by
  have hcounts : ∀ k ∈ [(2 : Int)], SearchConfig.Allows {} k := fun k hk => by
    rw [List.mem_singleton.1 hk]
    exact ⟨by decide, by decide⟩
  obtain ⟨t, r, h⟩ := UpDown.runStrategy_ok (s := ⟨UpDownEvaluator.mk, ⟨fun _ => 0, 0⟩⟩)
    (c := ⟨{}, by decide⟩) (r := ⟨.empty 0, .empty⟩) (.beamDfs ⟨2, 2, .cost, true⟩) rfl hcounts
  obtain ⟨t', r', h'⟩ := UpDown.runStrategy_ok (s := ⟨UpDownEvaluator.mk, ⟨fun _ => 0, 0⟩⟩)
    (c := ⟨{}, by decide⟩) (r := ⟨.empty 0, .empty⟩) (.beamBfs ⟨2, 2, .cost, true⟩) rfl hcounts
  refine ⟨t, t', r, r', h, h', ?_⟩
  refine (beamBfs_beamDfs UpDown.world UpDown.steadyScores UpDown.settled ?_
    (fun _ _ => ?_) (fun _ _ => ?_) h h').2.2
  · intro b d x hb hd hdump hx
    rwa [← UpDown.eq_of_dump hb hd hdump]
  · show 0 < 0 + 60 * 1000000000
    omega
  · show 0 < 0 + 60 * 1000000000 / 2
    omega

end ScheduleSearch

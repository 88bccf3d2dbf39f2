/-
  Rules for the beam searches.

  A beam search does what its expansions do.  `beamDfs_rule` and `beamBfs_rule` leave
  to show what these do to a graph, and `beamRounds_rule` does so for the rounds of
  the latter: whatever one round keeps, from its frontier to the leaves that are
  rebuilt after it, holds in the end, and after all rounds if time does not run out.
-/
import ScheduleSearch.Proofs.Outcome
import ScheduleSearch.Search.Strategy.Beam

namespace ScheduleSearch

open SearchM

variable {α ε : Type} [Agent α] [Evaluator ε α] {s : Setting ε} {c : CheckedConfig} {a root : α}
  {p : BeamParams} {r : Run α} {n : Nat} {E : SearchError → Run α → Prop}

/-- The settings of an expansion that starts when the clock shows its `k`-th reading. -/
def BeamParams.settings (p : BeamParams) (clock : Clock) (start k : Nat) (budget : Duration) :
    ExpandParams :=
  ⟨p.width, p.mode, p.ranking, start, deadlineAfter (clock.reading k) budget⟩

theorem beamDfs_rule {P : Run α → Prop} {Q : Table → Run α → Prop}
    (hcount : ¬ c.Allows p.steps → ∀ e, E e r)
    (hgrow : p.steps.toNat ≤ depthCeiling → ∀ start k r₁, Fresh c.seed r r₁ →
      Ends (expand s (p.settings s.clock start k c.timeout) (Agent.forget a) p.steps.toNat) r₁
        (fun _ r₂ => P r₂) E)
    (hfinish : ∀ start r₂, P r₂ → Ends (finish s c "beam_dfs" start) r₂ Q E) :
    Ends (beamDfs s c a p) r Q E := by
  unfold beamDfs
  refine Ends.bind ((depthOf_ends c p.steps).imp_error ?_) ?_
  · rintro e r ⟨rfl, hno⟩
    exact hcount hno e
  rintro steps r ⟨rfl, rfl, hd, -⟩
  refine Ends.bind now_ends fun start r₁ ⟨hq₁, _⟩ => ?_
  refine Ends.bind (report_ends _) fun _ r₂ hq₂ => ends_bind.2 (ends_changeGraph.2 ?_)
  refine Ends.bind (roundParams_ends p.width p.mode p.ranking start _) ?_
  rintro _ r₃ ⟨hq₃, k, rfl⟩
  refine Ends.bind (Ends.discard (hgrow hd start k r₃ (((hq₁.trans hq₂).fresh c.seed).quiet hq₃)))
    ?_
  rintro _ r₄ ⟨_, h₄⟩
  exact hfinish start r₄ h₄

/-- The rounds keep what each of them keeps. -/
theorem beamRounds_rule {start steps : Nat} {J : Nat → List α → Run α → Prop}
    (hquiet : ∀ i frontier r r', J i frontier r → Quiet r r' → J i frontier r')
    (hround : ∀ i frontier r k, i < n → J i frontier r →
      Ends (frontier.forM fun b =>
        discard (expand s (p.settings s.clock start k (c.roundBudget steps)) b 1)) r
        (fun _ r' => Ends (r'.graph.leaves.mapM fun m => replayed root m.actions) r' (J (i + 1)) E)
        E) :
    ∀ (left : Nat) {i : Nat} {frontier : List α} {r : Run α}, i + left = n → J i frontier r →
      Ends (beamRounds s c root p start steps left frontier) r
        (fun _ r' => ∃ i frontier, i ≤ n ∧ J i frontier r' ∧
          ((∀ k, s.clock.reading k - start ≤ c.timeout.nanoseconds) → i = n)) E
  | 0, i, frontier, r, hn, h => ⟨i, frontier, by omega, h, fun _ => by omega⟩
  | left + 1, i, frontier, r, hn, h => by
    refine Ends.bind (roundParams_ends p.width p.mode p.ranking start _) ?_
    rintro _ r₁ ⟨hq₁, k, rfl⟩
    refine Ends.bind (hround i frontier r₁ k (by omega) (hquiet _ _ _ _ h hq₁)) fun _ r₂ h₂ => ?_
    refine ends_bind.2 (ends_graph.2 (Ends.bind h₂ fun next r₃ h₃ => ?_))
    refine Ends.bind (report_ends _) fun _ r₄ hq₄ => ?_
    refine Ends.bind (elapsed_ends start) fun time r₅ ⟨hq₅, k', hk'⟩ => ?_
    have h₅ := hquiet _ _ _ _ h₃ (hq₄.trans hq₅)
    split
    · next hlate =>
      refine (report_ends _).imp_ok fun _ r₆ hq₆ => ?_
      refine ⟨i + 1, next, by omega, hquiet _ _ _ _ h₅ hq₆, fun htime => ?_⟩
      have := htime k'
      omega
    · exact beamRounds_rule hquiet hround left (by omega) h₅

theorem beamBfs_rule {P B : Run α → Prop} {Q : Table → Run α → Prop}
    (hcount : ¬ c.Allows p.steps → ∀ e, E e r)
    (hgrow : p.steps.toNat ≤ depthCeiling → ∀ k r₁, Fresh c.seed r r₁ →
      Ends (beamRounds s c (Agent.forget a) p (s.clock.reading k) p.steps.toNat p.steps.toNat
        [Agent.forget a]) r₁ (fun _ r₂ => P r₂) E)
    (hempty : ∀ start k r₂ r₃, P r₂ → r₂.graph.isEmpty → Quiet r₂ r₃ →
      Ends (expand s (p.settings s.clock start k (c.roundBudget p.steps.toNat)) (Agent.forget a) 0)
        r₃ (fun _ r₄ => B r₄) E)
    (hfull : ∀ r₂, P r₂ → r₂.graph.isEmpty = false → B r₂)
    (hfinish : ∀ start r₂, B r₂ → Ends (finish s c "beam_bfs" start) r₂ Q E) :
    Ends (beamBfs s c a p) r Q E := by
  unfold beamBfs
  refine Ends.bind ((depthOf_ends c p.steps).imp_error ?_) ?_
  · rintro e r ⟨rfl, hno⟩
    exact hcount hno e
  rintro steps r ⟨rfl, rfl, hd, -⟩
  refine Ends.bind now_ends ?_
  rintro _ r₁ ⟨hq₁, k, rfl⟩
  refine Ends.bind (report_ends _) fun _ r₂ hq₂ => ends_bind.2 (ends_changeGraph.2 ?_)
  refine Ends.bind (hgrow hd k _ ((hq₁.trans hq₂).fresh c.seed)) fun _ r₃ h₃ => ?_
  refine ends_bind.2 (ends_graph.2 ?_)
  split
  · next hemp =>
    refine Ends.bind (roundParams_ends p.width p.mode p.ranking _ _) ?_
    rintro _ r₄ ⟨hq₄, k', rfl⟩
    refine Ends.bind (Ends.discard (hempty _ k' r₃ r₄ h₃ hemp hq₄)) ?_
    rintro _ r₅ ⟨_, h₅⟩
    exact hfinish _ r₅ h₅
  · next hemp => exact hfinish _ r₃ (hfull r₃ h₃ (Bool.eq_false_iff.2 hemp))

end ScheduleSearch

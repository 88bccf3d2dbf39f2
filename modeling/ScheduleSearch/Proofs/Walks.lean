/-
  Rules for the greedy and the random searches.

  `greedySearch_rule` and `randomSearch_rule` leave to show what the rounds or the walks
  of such a search do to a fresh graph; `randomWalks_rule` does so for the walks: what
  one walk ensures, and the next keeps, holds after all of them.
-/
import ScheduleSearch.Proofs.Outcome
import ScheduleSearch.Search.Strategy.Greedy
import ScheduleSearch.Search.Strategy.Random

namespace ScheduleSearch

open SearchM

variable {α ε : Type} [Agent α] [Evaluator ε α] {s : Setting ε} {c : CheckedConfig} {a root : α}
  {r : Run α} {E : SearchError → Run α → Prop}

theorem greedySearch_rule {p : GreedyParams} {P : α → Run α → Prop} {B : Run α → Prop}
    {Q : Table → Run α → Prop} (hcount : ¬ (c.Allows p.steps ∧ c.Allows p.lookahead) → ∀ e, E e r)
    (hgrow : p.lookahead.toNat ≤ depthCeiling → ∀ k r₁, Fresh c.seed r r₁ →
      Ends (greedyRounds s c p (s.clock.reading k) p.steps.toNat p.lookahead.toNat p.steps.toNat
        (Agent.forget a)) r₁ P E)
    (hempty : ∀ final q r₂ r₃, P final r₂ → r₂.graph.isEmpty → Quiet r₂ r₃ →
      Ends (expand s q final 0) r₃ (fun _ r₄ => B r₄) E)
    (hfull : ∀ final r₂, P final r₂ → r₂.graph.isEmpty = false → B r₂)
    (hfinish : ∀ start r₂, B r₂ → Ends (finish s c "greedy" start) r₂ Q E) :
    Ends (greedySearch s c a p) r Q E := by
  unfold greedySearch
  refine Ends.bind ((depthOf_ends c p.steps).imp_error ?_) ?_
  · rintro e r ⟨rfl, hno⟩
    exact hcount (fun h => hno h.1) e
  rintro steps r ⟨rfl, rfl, -⟩
  refine Ends.bind ((depthOf_ends c p.lookahead).imp_error ?_) ?_
  · rintro e r ⟨rfl, hno⟩
    exact hcount (fun h => hno h.2) e
  rintro lookahead r ⟨rfl, rfl, hla, -⟩
  refine Ends.bind now_ends ?_
  rintro _ r₁ ⟨hq₁, k, rfl⟩
  refine Ends.bind (report_ends _) fun _ r₂ hq₂ => ends_bind.2 (ends_changeGraph.2 ?_)
  refine Ends.bind (hgrow hla k _ ((hq₁.trans hq₂).fresh c.seed)) fun final r₃ h₃ => ?_
  refine ends_bind.2 (ends_graph.2 ?_)
  split
  · next hemp =>
    refine Ends.bind (roundParams_ends p.width p.mode false _ _) fun q r₄ ⟨hq₄, _⟩ => ?_
    refine Ends.bind (Ends.discard (hempty final q r₃ r₄ h₃ hemp hq₄)) ?_
    rintro _ r₅ ⟨_, h₅⟩
    exact hfinish _ r₅ h₅
  · next hemp => exact hfinish _ r₃ (hfull final r₃ h₃ (Bool.eq_false_iff.2 hemp))

/-- What holds after a walk, and is kept by the next, holds after all walks. -/
theorem randomWalks_rule {p : RandomParams} {start steps : Nat} {P K : Run α → Prop}
    (hquiet : ∀ {r r'}, P r → Quiet r r' → P r') (hquiet' : ∀ {r r'}, K r → Quiet r r' → K r')
    (hagain : ∀ {r}, K r → P r)
    (hwalk : ∀ {q r}, P r → Ends (expand s q root steps) r (fun _ r' => K r') E) :
    ∀ (more walks : Nat) {r : Run α}, P r →
      Ends (randomWalks s c root p start steps more walks) r (fun _ r' => K r') E
  | more, walks, r, h => by
    unfold randomWalks
    refine Ends.bind (elapsed_ends start) fun _ r₁ ⟨hq₁, _⟩ => ?_
    refine Ends.bind (roundParams_ends 1 p.mode false start _) fun _ r₂ ⟨hq₂, _⟩ => ?_
    refine Ends.bind (Ends.discard (hwalk (hquiet h (hq₁.trans hq₂)))) ?_
    rintro _ r₃ ⟨_, h₃⟩
    refine Ends.bind (elapsed_ends start) fun time r₄ ⟨hq₄, _⟩ => ?_
    have h₄ := hquiet' h₃ hq₄
    cases more with
    | zero => exact h₄
    | succ more =>
      dsimp only
      split
      · exact h₄
      · exact randomWalks_rule hquiet hquiet' hagain hwalk more (walks + 1) (hagain h₄)

theorem randomSearch_rule {p : RandomParams} {P : Run α → Prop} {Q : Table → Run α → Prop}
    (hcount : ¬ c.Allows p.steps → ∀ e, E e r)
    (hgrow : p.steps.toNat ≤ depthCeiling → ∀ start r₁, Fresh c.seed r r₁ →
      Ends (randomWalks s c (Agent.forget a) p start p.steps.toNat s.clock.walks 0) r₁
        (fun _ r₂ => P r₂) E)
    (hquiet : ∀ {r r'}, P r → Quiet r r' → P r')
    (hfinish : ∀ start r₂, P r₂ → Ends (finish s c "random" start) r₂ Q E) :
    Ends (randomSearch s c a p) r Q E := by
  unfold randomSearch
  refine Ends.bind ((depthOf_ends c p.steps).imp_error ?_) ?_
  · rintro e r ⟨rfl, hno⟩
    exact hcount hno e
  rintro steps r ⟨rfl, rfl, hd, -⟩
  refine Ends.bind now_ends fun start r₁ ⟨hq₁, _⟩ => ?_
  refine Ends.bind (report_ends _) fun _ r₂ hq₂ => ends_bind.2 (ends_changeGraph.2 ?_)
  refine Ends.bind (hgrow hd start _ ((hq₁.trans hq₂).fresh c.seed)) fun walks r₃ h₃ => ?_
  refine ends_bind.2 (ends_graph.2 (Ends.bind (report_ends _) fun _ r₄ hq₄ => ?_))
  exact hfinish start r₄ (hquiet h₃ hq₄)

end ScheduleSearch

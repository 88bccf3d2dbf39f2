/-
  The up/down world is a world that a search is made for.

  The states within two actions of the start are few enough to be listed
  (`mem_states`), and all assumptions hold of them: `world`, `accepting`,
  `steadyScores` and `forgetful`.  Its evaluator is never to blame, so an expansion
  succeeds (`expand_ok`).
-/
import ScheduleSearch.Proofs.Counts
import ScheduleSearch.Proofs.Growth
import ScheduleSearch.World.UpDown

namespace ScheduleSearch.UpDown

open Agent SearchM

variable {a b c : UpDown} {x : String} {xs : List String} {n : Nat} {ev : UpDownEvaluator}

theorem moves_iff : Moves a x b ↔
    x = "up" ∧ b = ⟨a.score + 1, a.actions ++ [x]⟩ ∨
      x = "down" ∧ b = ⟨a.score, a.actions ++ [x]⟩ := by
  show Agent.changed a (UpDown.apply x) = .ok b ↔ _
  by_cases hu : x = "up"
  · subst hu
    simp [Agent.changed, UpDown.apply, EStateM.run, eq_comm]
  by_cases hd : x = "down"
  · subst hd
    simp [Agent.changed, UpDown.apply, EStateM.run, eq_comm]
  · simp [Agent.changed, UpDown.apply, EStateM.run, hu, hd]

/-- What a state accepts, and the scores after it, depend on its score alone. -/
theorem replays_of_score (hs : a.score = b.score) (h : Replays a xs c) :
    ∃ d, Replays b xs d ∧ c.score = d.score := by
  induction xs generalizing a b with
  | nil => exact ⟨b, replays_nil.2 rfl, (replays_nil.1 h) ▸ hs⟩
  | cons x xs ih =>
    obtain ⟨a', ha, h⟩ := replays_cons.1 h
    rcases moves_iff.1 ha with ⟨rfl, rfl⟩ | ⟨rfl, rfl⟩
    · obtain ⟨d, hd, hc⟩ := ih (b := ⟨b.score + 1, b.actions ++ ["up"]⟩)
        (congrArg (· + 1) hs) h
      exact ⟨d, replays_cons.2 ⟨_, moves_iff.2 (.inl ⟨rfl, rfl⟩), hd⟩, hc⟩
    · obtain ⟨d, hd, hc⟩ := ih (a := ⟨a.score, a.actions ++ ["down"]⟩)
        (b := ⟨b.score, b.actions ++ ["down"]⟩) hs h
      exact ⟨d, replays_cons.2 ⟨_, moves_iff.2 (.inr ⟨rfl, rfl⟩), hd⟩, hc⟩

/-! ## The states near the start -/

/-- The states within `n` actions of the start, for `n` up to two. -/
def states : Nat → List UpDown
  | 0 => [⟨0, []⟩]
  | 1 => [⟨0, []⟩, ⟨1, []⟩, ⟨1, ["up"]⟩, ⟨0, ["down"]⟩]
  | _ => [⟨0, []⟩, ⟨1, []⟩, ⟨2, []⟩, ⟨1, ["up"]⟩, ⟨2, ["up"]⟩, ⟨0, ["down"]⟩, ⟨1, ["down"]⟩,
    ⟨2, ["up", "up"]⟩, ⟨1, ["up", "down"]⟩, ⟨1, ["down", "up"]⟩, ⟨0, ["down", "down"]⟩]

theorem mem_states (h : Within start n b) (hn : n ≤ 2) : b ∈ states n := by
  induction h with
  | start => exact (by decide : ∀ n ≤ 2, start ∈ states n) _ hn
  | forget _ ih =>
    exact (by decide : ∀ n ≤ 2, ∀ b ∈ states n, (⟨b.score, []⟩ : UpDown) ∈ states n) _ hn _ (ih hn)
  | @move n b c x _ hm ih =>
    have hb := ih (by omega)
    have hn : n < 2 := by omega
    rcases moves_iff.1 hm with ⟨rfl, rfl⟩ | ⟨rfl, rfl⟩
    · exact (by decide : ∀ n < 2, ∀ b ∈ states n,
        (⟨b.score + 1, b.actions ++ ["up"]⟩ : UpDown) ∈ states (n + 1)) _ hn _ hb
    · exact (by decide : ∀ n < 2, ∀ b ∈ states n,
        (⟨b.score, b.actions ++ ["down"]⟩ : UpDown) ∈ states (n + 1)) _ hn _ hb

theorem nodup_fingerprints : ((states 2).map fingerprint).Nodup := by
  decide +kernel

theorem eq_of_fingerprint (hb : Within start 2 b) (hc : Within start 2 c)
    (h : fingerprint b = fingerprint c) : b = c :=
  List.inj_on_of_nodup_map nodup_fingerprints (mem_states hb le_rfl) (mem_states hc le_rfl) h

theorem eq_of_dump (hb : Within start 2 b) (hc : Within start 2 c)
    (h : Agent.dump b = Agent.dump c) : b = c :=
  eq_of_fingerprint hb hc (World.fingerprint_congr h)

/-! ## The assumptions of a search -/

theorem world : World start 2 where
  distinct hb hc h := congrArg Agent.dump (eq_of_fingerprint hb hc h)
  forgets _ := rfl
  appends _ h := by rcases moves_iff.1 h with ⟨rfl, rfl⟩ | ⟨rfl, rfl⟩ <;> rfl
  congr {b b' c x} hb hb' hd h := by
    obtain rfl := eq_of_dump hb hb' hd
    exact ⟨c, h, rfl⟩

theorem accepting : Accepting ev start 2 where
  available {b x} _ hx := by
    rcases List.mem_pair.1 hx with rfl | rfl
    exacts [⟨_, moves_iff.2 (.inl ⟨rfl, rfl⟩)⟩, ⟨_, moves_iff.2 (.inr ⟨rfl, rfl⟩)⟩]
  ranked {b turn mode ranked x} _ hr hx := by
    cases hr
    obtain ⟨y, hy, rfl⟩ := List.mem_map.1 hx
    rcases List.mem_pair.1 ((List.mergeSort_perm _ _).mem_iff.1 hy) with rfl | rfl
    exacts [⟨_, moves_iff.2 (.inr ⟨rfl, rfl⟩)⟩, ⟨_, moves_iff.2 (.inl ⟨rfl, rfl⟩)⟩]

theorem scores_iff {y : Float} : Scores ev b y ↔ y = b.score.toFloat := by
  constructor
  · rintro ⟨turn, h⟩
    exact (Except.ok.inj h).symm
  · rintro rfl
    exact ⟨0, rfl⟩

theorem steadyScores : SteadyScores ev start 2 where
  unique _ hx hy := (scores_iff.1 hx).trans (scores_iff.1 hy).symm
  same hb hc hd hx := by rwa [← eq_of_dump hb hc hd]

theorem forgetful : Forgetful ev start 2 := by
  intro b c xs _ h
  obtain ⟨d, hd, hs⟩ := replays_of_score (a := Agent.forget b) (b := b) rfl h
  exact ⟨d, hd, fun x => by rw [scores_iff, scores_iff, hs]⟩

/-- The evaluator is never to blame: every score is finite. -/
theorem not_blames {states : UpDown → Prop} {t : Trace UpDown} {e : SearchError} :
    ¬ Blames ev states t e := by
  intro h
  cases h with
  | score _ h => cases h
  | nonFinite _ hx h =>
    cases h
    exact hx (isFinite_toFloat _)
  | rank _ h => cases h

theorem expand_ok {s : Setting UpDownEvaluator} {p : ExpandParams} {depth : Nat} {seed : UInt64}
    {t : Trace UpDown} (hd : depth ≤ 2) :
    ∃ suffix r', expand s p start depth ⟨.empty seed, t⟩ = .ok suffix r' := by
  have hends := expand_grows (s := s) (p := p) world
    (growing_fresh ((Quiet.refl ⟨.empty seed, t⟩).fresh seed)) (ready_root rfl)
    (hd.trans (by decide : 2 ≤ depthCeiling)) ((Nat.zero_add depth).le.trans hd)
  rcases hends.result with ⟨suffix, r', h, -⟩ | ⟨e, r', -, he⟩
  · exact ⟨suffix, r', h⟩
  · exact absurd (he.2 accepting) not_blames

end ScheduleSearch.UpDown

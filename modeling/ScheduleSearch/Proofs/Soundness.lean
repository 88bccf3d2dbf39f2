/-
  Tables are sound.

  **`runStrategy_sound`**: whichever strategy runs, whatever it draws and whenever its
  time is up, the path of its table can be taken from the caller's agent with its
  history cleared, the rewards are the scores on the way, and the last is the highest
  of all that the search asked for.
-/
import ScheduleSearch.Proofs.Strategies

namespace ScheduleSearch

open Agent SearchM

variable {α ε : Type} [Agent α] [Evaluator ε α] {s : Setting ε} {c : CheckedConfig} {a : α}

/-- **Result soundness** of every strategy. -/
theorem runStrategy_sound {st : Strategy} {t : Table} {r r' : Run α} (hw : World a st.budget)
    (hst : SteadyScores s.evaluator a st.budget) (hf : Forgetful s.evaluator a st.budget)
    (h : runStrategy s c a st r = .ok t r') :
    t.actions.head? = some "" ∧ t.actions.length = t.rewards.length ∧
      (∃ b, Replays (forget a) t.path b) ∧
      (∀ i x, t.rewards[i]? = some x →
        ∃ b, Replays (forget a) (t.path.take i) b ∧ Scores s.evaluator b x) ∧
      ∃ new last, r'.trace.scored.toList = r.trace.scored.toList ++ new ∧
        t.rewards.getLast? = some last ∧ (∃ e ∈ new, Answered s.evaluator e last) ∧
        ∀ e ∈ new, ∃ x, Answered s.evaluator e x ∧ x ≤ last := by
  have hret := (runStrategy_ends st hw).ok h hf
  have hst' : SteadyScores s.evaluator (forget a) st.budget :=
    hst.sub (.forget .start) (Nat.zero_add _).le
  obtain ⟨new, last, hnew, hlast⟩ := hret.highest hst'
  have hlen := congrArg List.length hret.sound.actions_eq
  rw [List.length_cons] at hlen
  refine ⟨by rw [hret.sound.actions_eq]; rfl, hlen.trans hret.sound.rewards_eq.symm,
    hret.sound.replays, fun i x hx => ?_, new, last, hnew, hlast.last_eq, hlast.asked,
    hlast.others⟩
  obtain ⟨b, hb⟩ := hret.sound.replays
  obtain ⟨b', hb'⟩ := hb.before (List.take_prefix i t.path)
  exact ⟨b', hb', (hret.sound.rewarded hst').scores hx hb'⟩

/-- A search in two phases of the up/down world, with a clock that ticks. -/
theorem runStrategy_sound_upDown :
    ∃ t r', runStrategy ⟨UpDownEvaluator.mk, ⟨id, 0⟩⟩ ⟨{}, by decide⟩ UpDown.start
        (.beamBeam ⟨1, 2, .loopNest⟩ ⟨1, 2, .policy⟩) ⟨.empty 0, .empty⟩ = .ok t r' ∧
      t.actions.length = t.rewards.length ∧ ∃ b, Replays (forget UpDown.start) t.path b := by
  obtain ⟨t, r', h⟩ := UpDown.runStrategy_ok (s := ⟨UpDownEvaluator.mk, ⟨id, 0⟩⟩)
    (c := ⟨{}, by decide⟩) (r := ⟨.empty 0, .empty⟩)
    (.beamBeam ⟨1, 2, .loopNest⟩ ⟨1, 2, .policy⟩) rfl fun k hk => by
      rcases List.mem_pair.1 hk with rfl | rfl <;> exact ⟨by decide, by decide⟩
  obtain ⟨-, hlen, hpath, -⟩ := runStrategy_sound UpDown.world UpDown.steadyScores
    UpDown.forgetful h
  exact ⟨t, r', h, hlen, hpath⟩

end ScheduleSearch

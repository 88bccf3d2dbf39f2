/-
  The best score under any series of records.

  States are offered to a graph in any order, and a state that is offered again may
  come with another score.  Mostly the best state has the highest score, which does not
  fall.  The exception is an offer of the best state itself along fewer actions with a
  lower score (`Lowers`): its node is replaced, and no other state becomes the best one.

  * `keepsBest_offer`: a record that does not lower the best state keeps the best score;
  * `not_keepsBest_of_lowers`: one that does lets it fall;
  * **`keepsBest_iff`**: so in a series of records the best score never falls, and is
    always the highest, exactly if none of them lowers the best state.
-/
import ScheduleSearch.Proofs.Recording

namespace ScheduleSearch

/-- A state as it is offered to a graph. -/
structure Offer where
  fingerprint : Fingerprint
  actions : List String
  score : Float
  time : Float

namespace Graph

def offer (g : Graph) (o : Offer) : Graph :=
  (g.record o.fingerprint o.actions o.score o.time).2

/-- The graph after several offers, in order. -/
def offerAll (g : Graph) (os : List Offer) : Graph :=
  os.foldl offer g

/-- The offer takes the place of the best node: it has fewer actions, and a lower
    score. -/
def Lowers (g : Graph) (o : Offer) : Prop :=
  ∃ best ∈ g.bestNode?, best.fingerprint = o.fingerprint ∧
    o.actions.length < best.actions.length ∧ o.score < best.score

instance (g : Graph) (o : Offer) : Decidable (g.Lowers o) :=
  inferInstanceAs (Decidable (∃ best ∈ g.bestNode?, _))

/-- The best state of `g'` has the highest score, and none below the best of `g`. -/
def KeepsBest (g g' : Graph) : Prop :=
  ∃ best, g'.bestNode? = some best ∧
    (∀ fp m, g'.node? fp = some m → m.score ≤ best.score) ∧
    ∀ old, g.bestNode? = some old → old.score ≤ best.score

/-! ## One record -/

section
variable {g : Graph} {o : Offer} (hw : g.Wired)
  (hfin : ∀ fp m, g.node? fp = some m → m.score.isFinite) (ho : o.score.isFinite)
include hw hfin ho

/-- An offer of the best state that is stored has no lower score, unless it lowers the
    best state. -/
theorem best_le_of_not_lowers (hno : ¬ g.Lowers o) (hk : ¬ g.Knows o.fingerprint o.actions.length)
    {best : Node} (hbest : g.bestNode? = some best) (hfp : best.fingerprint = o.fingerprint) :
    best.score ≤ o.score := by
  obtain ⟨-, hnode⟩ := hw.node?_best hbest
  refine (FloatOrder.not_lt_iff (FloatOrder.not_isNaN ho)
    (FloatOrder.not_isNaN (hfin _ _ hnode))).1 fun hlt => hno ⟨best, hbest, hfp, ?_, hlt⟩
  exact Nat.lt_of_not_le fun hle => hk ⟨best, hfp ▸ hnode, hle⟩

theorem peaked_offer (hp : g.Peaked) (hno : ¬ g.Lowers o) : (g.offer o).Peaked := by
  unfold offer
  rcases g.record_cases o.fingerprint o.actions o.score o.time with ⟨hk, hg⟩ | ⟨-, hg⟩ <;> rw [hg]
  · exact peaked_store hw hp hfin ho fun best hbest hfp =>
      best_le_of_not_lowers hw hfin ho hno hk hbest hfp
  · exact hp

/-- **A record** that does not lower the best state keeps the best score. -/
theorem keepsBest_offer (hp : g.Peaked) (hno : ¬ g.Lowers o) : g.KeepsBest (g.offer o) := by
  have hp' := peaked_offer hw hfin ho hp hno
  have hw' : (g.offer o).Wired := wired_record hw _ _ _ _
  obtain ⟨m, hm, -⟩ : (g.offer o).Knows o.fingerprint o.actions.length :=
    knows_record.2 (.inr ⟨rfl, Nat.le_refl _⟩)
  obtain ⟨best, hbest⟩ := hw'.exists_best hm
  refine ⟨best, hbest, hp' best hbest, fun old hold => ?_⟩
  obtain ⟨-, hnode⟩ := hw.node?_best hold
  -- the old best state is a node of the new graph, perhaps with a higher score
  unfold offer at hbest hp'
  rcases g.record_cases o.fingerprint o.actions o.score o.time with ⟨hk, hg⟩ | ⟨-, hg⟩ <;>
    rw [hg] at hbest hp'
  · by_cases hfp : old.fingerprint = o.fingerprint
    · have hnew := hp' best hbest o.fingerprint ⟨o.fingerprint, o.actions, o.score, o.time, false⟩
        (by rw [node?_store, if_pos rfl])
      exact FloatOrder.trans (best_le_of_not_lowers hw hfin ho hno hk hold hfp) hnew
    · refine hp' best hbest old.fingerprint old ?_
      rw [node?_store, if_neg hfp]
      exact hnode
  · exact hp' best hbest _ _ hnode

/-- A record that lowers the best state lets the best score fall. -/
theorem not_keepsBest_of_lowers (hl : g.Lowers o) : ¬ g.KeepsBest (g.offer o) := by
  obtain ⟨old, hold, hfp, hlen, hlt⟩ := hl
  rw [Option.mem_def] at hold
  obtain ⟨-, hnode⟩ := hw.node?_best hold
  have hn := FloatOrder.not_isNaN ho
  have hn' := FloatOrder.not_isNaN (hfin _ _ hnode)
  rintro ⟨best, hbest, -, hle⟩
  have hle := hle old hold
  unfold offer at hbest
  rcases g.record_cases o.fingerprint o.actions o.score o.time with ⟨-, hg⟩ | ⟨⟨m, hm, hk⟩, -⟩
  · rw [hg, bestNode?_store hw, hold] at hbest
    dsimp only at hbest
    rw [if_pos (.inr hfp)] at hbest
    cases hbest
    exact (FloatOrder.not_lt_iff hn hn').2 hle hlt
  · -- the best node has more actions than the offer
    rw [← hfp, hnode] at hm
    cases hm
    omega

end

/-! ## Several records -/

section
variable {seed : UInt64} {os : List Offer}

theorem offerAll_take_succ (g : Graph) {i : Nat} (hi : i < os.length) :
    g.offerAll (os.take (i + 1)) = (g.offerAll (os.take i)).offer os[i] := by
  rw [List.take_succ_eq_append_getElem hi, offerAll, List.foldl_append, List.foldl_cons,
    List.foldl_nil, offerAll]

/-- What a series of records keeps whatever is offered. -/
theorem wired_offerAll (seed : UInt64) (hfin : ∀ o ∈ os, o.score.isFinite) : ∀ {i : Nat}, i ≤ os.length →
    ((empty seed).offerAll (os.take i)).Wired ∧
      ∀ fp m, ((empty seed).offerAll (os.take i)).node? fp = some m → m.score.isFinite
  | 0, _ => ⟨wired_empty seed, fun _ _ hm => by cases hm⟩
  | i + 1, hi => by
    obtain ⟨hw, hnodes⟩ := wired_offerAll seed hfin (Nat.le_of_succ_le hi)
    rw [offerAll_take_succ _ hi]
    refine ⟨wired_record hw _ _ _ _, fun fp m hm => ?_⟩
    rcases node?_record hm with ⟨-, rfl⟩ | hm
    · exact hfin _ (List.getElem_mem hi)
    · exact hnodes fp m hm

theorem peaked_offerAll (hfin : ∀ o ∈ os, o.score.isFinite)
    (hno : ∀ i (hi : i < os.length), ¬ ((empty seed).offerAll (os.take i)).Lowers os[i]) :
    ∀ {i : Nat}, i ≤ os.length → ((empty seed).offerAll (os.take i)).Peaked
  | 0, _ => fun _ hb => by cases hb
  | i + 1, hi => by
    obtain ⟨hw, hnodes⟩ := wired_offerAll seed hfin (Nat.le_of_succ_le hi)
    rw [offerAll_take_succ _ hi]
    exact peaked_offer hw hnodes (hfin _ (List.getElem_mem hi))
      (peaked_offerAll hfin hno (Nat.le_of_succ_le hi)) (hno i hi)

/-- **The best score** never falls, and is the highest after every record of a series,
    exactly if no record lowers the best state. -/
theorem keepsBest_iff (hfin : ∀ o ∈ os, o.score.isFinite) :
    (∀ i < os.length, ((empty seed).offerAll (os.take i)).KeepsBest
        ((empty seed).offerAll (os.take (i + 1)))) ↔
      ∀ i (hi : i < os.length), ¬ ((empty seed).offerAll (os.take i)).Lowers os[i] := by
  constructor
  · intro h i hi hl
    obtain ⟨hw, hnodes⟩ := wired_offerAll seed hfin hi.le
    refine not_keepsBest_of_lowers hw hnodes (hfin _ (List.getElem_mem hi)) hl ?_
    rw [← offerAll_take_succ _ hi]
    exact h i hi
  · intro hno i hi
    obtain ⟨hw, hnodes⟩ := wired_offerAll seed hfin hi.le
    rw [offerAll_take_succ _ hi]
    exact keepsBest_offer hw hnodes (hfin _ (List.getElem_mem hi))
      (peaked_offerAll hfin hno hi.le) (hno i hi)

end

/-- A state that is not the best one may be lowered. -/
theorem keepsBest_lowered :
    let os : List Offer := [⟨.ofDump "A", ["x", "y"], 10, 0⟩, ⟨.ofDump "B", ["z"], 20, 0⟩,
      ⟨.ofDump "A", ["w"], 1, 0⟩]
    ∀ i < os.length, ((empty 0).offerAll (os.take i)).KeepsBest
      ((empty 0).offerAll (os.take (i + 1))) :=
  (keepsBest_iff (by decide +kernel)).2 (by decide +kernel)

/-- The best of two states is lowered: it stays the best, below the other and below
    what was the best score before. -/
theorem best_falls :
    let os : List Offer := [⟨.ofDump "A", ["x", "y"], 10, 0⟩, ⟨.ofDump "B", ["z"], 10, 0⟩,
      ⟨.ofDump "A", ["w"], 1, 0⟩]
    (∀ o ∈ os, o.score.isFinite) ∧
      ∃ old ∈ ((empty 0).offerAll (os.take 2)).bestNode?,
        ∃ best ∈ ((empty 0).offerAll (os.take 3)).bestNode?, best.score < old.score ∧
          ∃ other ∈ ((empty 0).offerAll (os.take 3)).node? (.ofDump "B"),
            best.score < other.score := by
  decide +kernel

end Graph

end ScheduleSearch

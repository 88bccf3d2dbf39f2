/-
  Which offer of a state is stored.

  A state may be offered again and again, each time along other actions and with another
  score.  Of all its offers the graph stores one, whole: the earliest of those with the fewest
  actions (`Prevails`).

  * `knows_offerAll`: a graph knows the states that it was offered, along the actions of any
    of their offers;
  * `node?_offerAll`: its nodes are the offers that prevail;
  * `record_inserted_iff`, `record_replaced_iff`, `record_kept_iff`: what becomes of an offer;
  * **`first_shortest_wins`**: so there is a node for each state that was offered, that of its
    earliest shortest offer, and the answer to a further offer says how it compares with those
    before.
-/
import ScheduleSearch.Proofs.BestScore

namespace ScheduleSearch

/-- The node that an offer becomes. -/
def Offer.node (o : Offer) : Node :=
  ⟨o.fingerprint, o.actions, o.score, o.time, false⟩

/-- Of the offers of its state this one is the earliest of the shortest: those before it are
    longer, and those after it are not shorter. -/
def Prevails (os : List Offer) (o : Offer) : Prop :=
  ∃ before after, os = before ++ o :: after ∧
    (∀ p ∈ before, p.fingerprint = o.fingerprint → o.actions.length < p.actions.length) ∧
    ∀ p ∈ after, p.fingerprint = o.fingerprint → o.actions.length ≤ p.actions.length

section
variable {os : List Offer} {o p w : Offer}

theorem Prevails.mem (h : Prevails os w) : w ∈ os := by
  obtain ⟨before, after, rfl, -⟩ := h
  exact List.mem_append_right _ List.mem_cons_self

theorem Prevails.length_le (h : Prevails os w) (hp : p ∈ os)
    (hfp : p.fingerprint = w.fingerprint) : w.actions.length ≤ p.actions.length := by
  obtain ⟨before, after, rfl, hbefore, hafter⟩ := h
  rcases List.mem_append.1 hp with hp | hp
  · exact (hbefore p hp hfp).le
  rcases List.mem_cons.1 hp with rfl | hp
  · exact le_rfl
  · exact hafter p hp hfp

/-- After one more offer the same one prevails, unless the new one is shorter than all. -/
theorem prevails_concat : Prevails (os ++ [o]) w ↔
    (Prevails os w ∧ (o.fingerprint = w.fingerprint → w.actions.length ≤ o.actions.length)) ∨
      w = o ∧ ∀ p ∈ os, p.fingerprint = o.fingerprint → o.actions.length < p.actions.length := by
  constructor
  · rintro ⟨before, after, hos, hbefore, hafter⟩
    rcases List.eq_nil_or_concat' after with rfl | ⟨after, z, rfl⟩
    · obtain ⟨rfl, hz⟩ := List.append_inj' hos rfl
      cases hz
      exact .inr ⟨rfl, hbefore⟩
    · rw [← List.cons_append, ← List.append_assoc] at hos
      obtain ⟨rfl, hz⟩ := List.append_inj' hos rfl
      cases hz
      exact .inl ⟨⟨before, after, rfl, hbefore, fun p hp => hafter p (List.mem_append_left _ hp)⟩,
        hafter o (List.mem_append_right _ (List.mem_singleton_self o))⟩
  · rintro (⟨⟨before, after, rfl, hbefore, hafter⟩, ho⟩ | ⟨rfl, hbefore⟩)
    · refine ⟨before, after ++ [o], by simp, hbefore, fun p hp => ?_⟩
      rcases List.mem_append.1 hp with hp | hp
      · exact hafter p hp
      · rw [List.mem_singleton.1 hp]
        exact ho
    · exact ⟨os, [], rfl, hbefore, fun p hp => absurd hp List.not_mem_nil⟩

end

namespace Graph

variable {g : Graph} {seed : UInt64} {os : List Offer} {o : Offer} {fp : Fingerprint} {n : Node}

/-! ## What is stored -/

theorem offerAll_concat (g : Graph) (os : List Offer) (o : Offer) :
    g.offerAll (os ++ [o]) = (g.offerAll os).offer o :=
  List.foldl_concat offer g o os

/-- A state is known along the actions of any of its offers. -/
theorem knows_offerAll {k : Nat} : ((empty seed).offerAll os).Knows fp k ↔
    ∃ o ∈ os, o.fingerprint = fp ∧ o.actions.length ≤ k := by
  induction os using List.reverseRecOn with
  | nil =>
    constructor
    · rintro ⟨n, hn, -⟩
      cases hn
    · rintro ⟨o, ho, -⟩
      cases ho
  | append_singleton os o ih =>
    rw [offerAll_concat, offer, knows_record, ih]
    simp only [List.mem_append, List.mem_singleton, or_and_right, exists_or, exists_eq_left,
      eq_comm (a := fp)]

/-- **The nodes** of a graph are the offers that prevail. -/
theorem node?_offerAll : ((empty seed).offerAll os).node? fp = some n ↔
    ∃ w, Prevails os w ∧ w.fingerprint = fp ∧ w.node = n := by
  induction os using List.reverseRecOn with
  | nil =>
    constructor
    · intro hn
      cases hn
    · rintro ⟨w, hw, -⟩
      cases hw.mem
  | append_singleton os o ih =>
    have hold : ∀ k, ((empty seed).offerAll os).Knows o.fingerprint k ↔
        ∃ p ∈ os, p.fingerprint = o.fingerprint ∧ p.actions.length ≤ k := fun _ => knows_offerAll
    simp only [offerAll_concat, offer, prevails_concat]
    rcases record_cases ((empty seed).offerAll os) o.fingerprint o.actions o.score o.time with
      ⟨hk, hg⟩ | ⟨hk, hg⟩ <;> rw [hold] at hk
    · -- the offer is shorter than all of its state, so none of these prevails any longer
      have hshort : ∀ p ∈ os, p.fingerprint = o.fingerprint →
          o.actions.length < p.actions.length := fun p hp hfp =>
        Nat.lt_of_not_le fun hle => hk ⟨p, hp, hfp, hle⟩
      rw [hg, node?_store]
      split
      · next hfp =>
        constructor
        · intro hn
          exact ⟨o, .inr ⟨rfl, hshort⟩, hfp.symm, Option.some.inj hn⟩
        · rintro ⟨w, ⟨hw, hle⟩ | ⟨rfl, -⟩, hwfp, rfl⟩
          · have hwo := hwfp.trans hfp
            exact absurd (hle hwo.symm) (Nat.not_le.2 (hshort w hw.mem hwo))
          · rfl
      · next hfp =>
        rw [ih]
        constructor
        · rintro ⟨w, hw, rfl, hn⟩
          exact ⟨w, .inl ⟨hw, fun h => absurd h.symm hfp⟩, rfl, hn⟩
        · rintro ⟨w, ⟨hw, -⟩ | ⟨rfl, -⟩, rfl, hn⟩
          · exact ⟨w, hw, rfl, hn⟩
          · exact absurd rfl hfp
    · obtain ⟨p, hp, hpo, hle⟩ := hk
      rw [hg, ih]
      constructor
      · rintro ⟨w, hw, hfp, hn⟩
        refine ⟨w, .inl ⟨hw, fun h => ?_⟩, hfp, hn⟩
        exact (hw.length_le hp (hpo.trans h)).trans hle
      · rintro ⟨w, ⟨hw, -⟩ | ⟨rfl, hshort⟩, hfp, hn⟩
        · exact ⟨w, hw, hfp, hn⟩
        · exact absurd hle (Nat.not_le.2 (hshort p hp hpo))

/-! ## What becomes of an offer -/

section
variable {actions : List String} {score time : Float}

theorem record_inserted_iff :
    (g.record fp actions score time).1 = .inserted ↔ ∀ k, ¬ g.Knows fp k := by
  unfold record Knows
  cases g.node? fp with
  | none => simp
  | some old =>
    refine iff_of_false ?_ fun h => h old.actions.length ⟨old, rfl, le_rfl⟩
    dsimp only
    split <;> simp

theorem record_replaced_iff : (g.record fp actions score time).1 = .replaced ↔
    (∃ k, g.Knows fp k) ∧ ¬ g.Knows fp actions.length := by
  unfold record Knows
  cases g.node? fp with
  | none => simp
  | some old =>
    have hold : ∃ k, old.actions.length ≤ k := ⟨_, le_rfl⟩
    dsimp only
    split
    · next h => simp [hold, h]
    · next h => simp [Nat.not_lt.1 h]

/-- An offer that is kept changes nothing. -/
theorem record_kept_iff : (g.record fp actions score time).1 = .kept ↔
    g.Knows fp actions.length := by
  unfold record Knows
  cases g.node? fp with
  | none => simp
  | some old =>
    dsimp only
    split
    · next h => simp [h]
    · next h => simp [Nat.not_lt.1 h]

theorem record_of_kept (h : (g.record fp actions score time).1 = .kept) :
    (g.record fp actions score time).2 = g := by
  rcases record_cases g fp actions score time with ⟨hk, -⟩ | ⟨-, hg⟩
  · exact absurd (record_kept_iff.1 h) hk
  · exact hg

end

/-- **The first shortest path wins.**  After any offers the nodes are those of the earliest
    shortest offers, one for each state that was offered.  A further offer is inserted exactly
    if it is the first of its state, replaces the node exactly if it is shorter than every
    earlier offer of its state, of which there is one, and is kept otherwise; then the graph
    stays as it is. -/
theorem first_shortest_wins (seed : UInt64) (os : List Offer) (o : Offer) :
    let g := (empty seed).offerAll os
    let earlier := os.filter (·.fingerprint = o.fingerprint)
    let call := g.record o.fingerprint o.actions o.score o.time
    (∀ fp n, g.node? fp = some n ↔ ∃ w, Prevails os w ∧ w.fingerprint = fp ∧ w.node = n) ∧
      (∀ p ∈ os, ∃ w, Prevails os w ∧ w.fingerprint = p.fingerprint ∧
        g.node? p.fingerprint = some w.node) ∧
      (call.1 = .inserted ↔ earlier = []) ∧
      (call.1 = .replaced ↔
        earlier ≠ [] ∧ ∀ p ∈ earlier, o.actions.length < p.actions.length) ∧
      (call.1 = .kept ↔ ∃ p ∈ earlier, p.actions.length ≤ o.actions.length) ∧
      (call.1 = .kept → call.2 = g) := by
  intro g earlier call
  have hknows : ∀ k, g.Knows o.fingerprint k ↔ ∃ p ∈ earlier, p.actions.length ≤ k := fun k => by
    rw [knows_offerAll]
    simp only [earlier, List.mem_filter, decide_eq_true_eq, and_assoc]
  have hsome : (∃ k, g.Knows o.fingerprint k) ↔ earlier ≠ [] := by
    simp only [hknows]
    constructor
    · rintro ⟨k, p, hp, -⟩
      exact List.ne_nil_of_mem hp
    · intro h
      obtain ⟨p, hp⟩ := List.exists_mem_of_ne_nil _ h
      exact ⟨_, p, hp, le_rfl⟩
  refine ⟨fun _ _ => node?_offerAll, fun p hp => ?_, ?_, ?_, ?_, record_of_kept⟩
  · obtain ⟨n, hn, -⟩ := knows_offerAll.2 ⟨p, hp, rfl, le_rfl⟩
    obtain ⟨w, hw, hfp, rfl⟩ := node?_offerAll.1 hn
    exact ⟨w, hw, hfp, hn⟩
  · rw [record_inserted_iff, ← not_exists, hsome, not_not]
  · rw [record_replaced_iff, hsome, hknows]
    push Not
    rfl
  · rw [record_kept_iff, hknows]

end Graph

end ScheduleSearch

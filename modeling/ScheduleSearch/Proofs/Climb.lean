/-
  The climb in the up/down world.

  `after s xs` is the state that the actions `xs` make of a score `s`.  Of all states within
  `n` actions, the climb of `n` times `up` alone has the highest score (`score_lt_climb`).  So
  a search finds it, unless another history in sight has the fingerprint of a climb (`Apart`).

  * `dump_injective`: one dump, one state;
  * `followed_of_chosen`: `up` is among the candidates that are followed from a state;
  * `Charted`: the invariant of the graph: its nodes and its transitions are those of
    histories in sight, and the top of the climb is the best state once it is known;
  * **`explore_climbs`**: exploration keeps the invariant, and in the end the climb is known;
  * `Charted.remaining_climb` and `Charted.chain`: the actions that remain to the best state,
    and those of the way back from it, are `up` alone.
-/
import ScheduleSearch.Proofs.NestText
import ScheduleSearch.Proofs.UpDownWorld

namespace ScheduleSearch.UpDown

open Agent SearchM

variable {s : UInt32} {xs ys : List String} {x : String} {i k n N : ℕ}

/-! ## States -/

/-- The state that some actions make of a score. -/
def after (s : UInt32) (xs : List String) : UpDown := ⟨s + (xs.count "up").toUInt32, xs⟩

/-- So many times `up`. -/
abbrev climb (k : ℕ) : List String := List.replicate k "up"

theorem moves_after (hx : x ∈ ["up", "down"]) : Moves (after s xs) x (after s (xs ++ [x])) := by
  rcases List.mem_pair.1 hx with rfl | rfl
  · refine moves_iff.2 (.inl ⟨rfl, ?_⟩)
    simp [after, List.count_append, Nat.toUInt32, UInt32.ofNat_add, add_assoc]
  · refine moves_iff.2 (.inr ⟨rfl, ?_⟩)
    simp [after, List.count_append]

theorem replays_after (hxs : ∀ x ∈ xs, x ∈ ["up", "down"]) :
    Replays (after s ys) xs (after s (ys ++ xs)) := by
  induction xs generalizing ys with
  | nil => rw [List.append_nil, replays_nil]
  | cons x xs ih =>
    obtain ⟨hx, hxs⟩ := List.forall_mem_cons.1 hxs
    have hrest : Replays (after s (ys ++ [x])) xs (after s (ys ++ [x] ++ xs)) := ih hxs
    rw [List.append_assoc, List.singleton_append] at hrest
    exact replays_cons.2 ⟨_, moves_after hx, hrest⟩

theorem toNat_score (hl : s.toNat + xs.length < 2 ^ 32) :
    (after s xs).score.toNat = s.toNat + xs.count "up" := by
  have hcount : xs.count "up" ≤ xs.length := List.count_le_length
  show (s + (xs.count "up").toUInt32).toNat = _
  rw [UInt32.toNat_add, Nat.toUInt32_eq, UInt32.toNat_ofNat', Nat.mod_eq_of_lt (by omega),
    Nat.mod_eq_of_lt (by omega)]

/-- Whatever else is done in as many actions scores less than the climb. -/
theorem score_lt_climb (hs : s.toNat + N < 2 ^ 32) (hl : xs.length ≤ N) (hne : xs ≠ climb N) :
    (after s xs).score < (after s (climb N)).score := by
  have hcount : xs.count "up" < N := by
    refine lt_of_le_of_ne (List.count_le_length.trans hl) fun heq => hne ?_
    have hlen : xs.count "up" = xs.length := by
      have := List.count_le_length (a := "up") (l := xs)
      omega
    exact List.eq_replicate_iff.2 ⟨by omega, fun x hx => (List.count_eq_length.1 hlen x hx).symm⟩
  rw [UInt32.lt_iff_toNat_lt, toNat_score (by omega),
    toNat_score (by rw [List.length_replicate]; exact hs), List.count_replicate_self]
  omega

/-! ## Dumps -/

theorem toList_dump (a : UpDown) : (dump a).toList =
    "score=".toList ++ (a.score.toNat.repr.toList ++ ' ' :: ("history=[".toList ++
      ([','].intercalate (a.actions.map String.toList) ++ [']']))) := by
  have hhead : (s!"score={a.score.toNat} history=[").toList =
      "score=".toList ++ (a.score.toNat.repr.toList ++ ' ' :: "history=[".toList) := by
    simp [toString]
  unfold dump
  rw [String.toList_append, String.toList_append, hhead, String.toList_intercalate]
  simp

/-- Actions are told apart by the commas between them. -/
theorem intercalate_injective (hxs : ∀ x ∈ xs, x ∈ ["up", "down"])
    (hys : ∀ y ∈ ys, y ∈ ["up", "down"])
    (h : [','].intercalate (xs.map String.toList) = [','].intercalate (ys.map String.toList)) :
    xs = ys := by
  have hsplit : ∀ {zs : List String}, (∀ z ∈ zs, z ∈ ["up", "down"]) →
      ([','].intercalate (zs.map String.toList)).splitOn ',' =
        if zs = [] then [[]] else zs.map String.toList := fun {zs} hzs => by
    split
    · subst zs
      rfl
    · refine List.splitOn_intercalate ',' ?_ (by simpa)
      intro cs hcs
      obtain ⟨z, hz, rfl⟩ := List.mem_map.1 hcs
      exact (by decide : ∀ z ∈ ["up", "down"], ',' ∉ z.toList) z (hzs z hz)
  have hne : ∀ {zs : List String}, (∀ z ∈ zs, z ∈ ["up", "down"]) →
      zs.map String.toList ≠ [[]] := fun {zs} hzs hmap => by
    obtain ⟨z, hz, hnil⟩ := List.mem_map.1 (hmap ▸ List.mem_singleton_self ([] : List Char))
    exact (by decide : ∀ z ∈ ["up", "down"], z.toList ≠ []) z (hzs z hz) hnil
  have hlists := congrArg (List.splitOn ',') h
  rw [hsplit hxs, hsplit hys] at hlists
  split at hlists <;> split at hlists
  · exact ‹xs = []›.trans ‹ys = []›.symm
  · exact absurd hlists.symm (hne hys)
  · exact absurd hlists (hne hxs)
  · exact List.map_injective_iff.2 (fun _ _ => String.toList_inj.1) hlists

/-- One dump, one state. -/
theorem dump_injective {a b : UpDown} (ha : ∀ x ∈ a.actions, x ∈ ["up", "down"])
    (hb : ∀ x ∈ b.actions, x ∈ ["up", "down"]) (h : Agent.dump a = Agent.dump b) : a = b := by
  have hchars : (UpDown.dump a).toList = (UpDown.dump b).toList := congrArg String.toList h
  rw [toList_dump, toList_dump] at hchars
  have htail := List.append_cancel_left hchars
  -- the score ends with its last digit
  have hdigits : ∀ (n : ℕ) (cs : List Char),
      (n.repr.toList ++ ' ' :: cs).takeWhile Char.isDigit = n.repr.toList := fun n cs => by
    rw [List.takeWhile_append_of_pos fun _ => isDigit_of_mem_repr,
      List.takeWhile_cons_of_neg (by decide), List.append_nil]
  have hscore := congrArg (List.takeWhile Char.isDigit) htail
  rw [hdigits, hdigits] at hscore
  rw [hscore] at htail
  have hlist := List.append_cancel_left (List.cons.inj (List.append_cancel_left htail)).2
  have hactions := intercalate_injective ha hb (List.append_cancel_right hlist)
  obtain ⟨score, actions⟩ := a
  obtain ⟨score', actions'⟩ := b
  obtain rfl : actions = actions' := hactions
  obtain rfl : score = score' :=
    UInt32.toNat_inj.1 (Nat.repr_inj.1 (String.toList_inj.1 hscore))
  rfl

/-! ## Candidates -/

/-- The actions that may be followed from a state: the first of the ranking, or both. -/
def followed (ranking : Bool) (width : ℕ) : List String :=
  if ranking then ["up", "down"].take width else ["up", "down"]

theorem mem_of_followed {ranking : Bool} {width : ℕ} (hx : x ∈ followed ranking width) :
    x ∈ ["up", "down"] := by
  unfold followed at hx
  split at hx
  exacts [List.mem_of_mem_take hx, hx]

/-- `up` is ranked first, since its score is one higher. -/
theorem rank_eq {turn : ℕ} {mode : EvalMode} {ev : UpDownEvaluator} {b : UpDown}
    {ranked : List RankedAction} (hb : b.score.toNat + 1 < 2 ^ 32)
    (h : Evaluator.rank ev turn b mode = .ok ranked) :
    ranked.map (·.action) = ["up", "down"] := by
  cases h
  have hlt : b.score < b.score + 1 := by
    rw [UInt32.lt_iff_toNat_lt, UInt32.toNat_add]
    exact (Nat.lt_succ_self _).trans_eq (Nat.mod_eq_of_lt hb).symm
  have hkey := orderKey_lt (isFinite_toFloat _) (isFinite_toFloat _) (toFloat_lt_iff.2 hlt)
  rw [sortBestFirst_pair]
  · rfl
  · unfold RankedAction.notAfter
    dsimp only
    rw [toFloat_add_one hb, FloatOrder.not_isNaN (isFinite_toFloat _),
      FloatOrder.not_isNaN (isFinite_toFloat _)]
    simpa using hkey

/-- The width leaves `up` among the candidates. -/
def WideEnough (ranking : Bool) (width : ℕ) : Prop := ranking ∧ 1 ≤ width ∨ 2 ≤ width

theorem followed_of_chosen {st : Setting UpDownEvaluator} {p : ExpandParams} {b : UpDown}
    {turn : ℕ} (hw : WideEnough p.ranking p.width) (hb : b.score.toNat + 1 < 2 ^ 32)
    (hc : Chosen st p b turn xs) : "up" ∈ xs ∧ ∀ x ∈ xs, x ∈ followed p.ranking p.width := by
  unfold followed
  cases hc with
  | ranked hp hranked =>
    rw [rank_eq hb hranked, if_pos hp]
    have hpos : p.width ≠ 0 := by
      unfold WideEnough at hw
      omega
    exact ⟨by cases hwidth : p.width <;> simp_all, fun _ hx => hx⟩
  | @drawn ys hp hys =>
    have htwo : 2 ≤ p.width := hw.resolve_left fun h => hp h.1
    have hlen : ys.length = 2 := hys.length_eq
    rw [if_neg hp, List.take_of_length_le (hlen.trans_le htwo)]
    exact ⟨hys.mem_iff.2 List.mem_cons_self, fun _ hx => hys.mem_iff.1 hx⟩

/-! ## The graph of a climb -/

/-- The fingerprint of the state that some actions lead to. -/
def site (s : UInt32) (xs : List String) : Fingerprint := fingerprint (after s xs)

/-- No history in `V` has the fingerprint of a climb of at most `n` actions, but that climb. -/
def Apart (s : UInt32) (V : List String → Prop) (n : ℕ) : Prop :=
  ∀ xs k, V xs → k ≤ n → site s xs = site s (climb k) → xs = climb k

/-- A node as a history of at most `N` actions in `V` leaves it. -/
structure Listed (s : UInt32) (V : List String → Prop) (N : ℕ) (g : Graph) (fp : Fingerprint)
    (m : Node) : Prop where
  sight : V m.actions
  length : m.actions.length ≤ N
  site_eq : site s m.actions = fp
  score_eq : m.score = (after s m.actions).score.toFloat
  entered : g.Entered fp m.actions

/-- The graph of histories of at most `N` actions in `V`. -/
structure Charted (s : UInt32) (V : List String → Prop) (N : ℕ) (g : Graph) : Prop where
  wired : g.Wired
  node {fp : Fingerprint} {m : Node} : g.node? fp = some m → Listed s V N g fp m
  edge {t : Transition} : t ∈ g.transitions → ∃ xs, V xs ∧ V (xs ++ [t.action]) ∧
    xs.length < N ∧ site s xs = t.source ∧ site s (xs ++ [t.action]) = t.target
  top {k : ℕ} : g.Knows (site s (climb N)) k → g.best = some (site s (climb N))

/-- The state after some actions may be recorded: it is known along as few, or entered. -/
def Found (s : UInt32) (g : Graph) (xs : List String) : Prop :=
  g.Knows (site s xs) xs.length ∨ g.Entered (site s xs) xs

section
variable {V : List String → Prop} {g g' : Graph} {fp : Fingerprint} {m : Node}

theorem Found.grow (h : Found s g xs) (hg : g.Grows g') : Found s g' xs :=
  h.imp hg.knows (·.grow hg)

theorem found_nil : Found s g [] := .inr fun before last h => by simp at h

/-- A transition that is stored enters its target, if the state before it is known. -/
theorem found_recordEdge (hk : g.Knows (site s xs) xs.length) :
    Found s (g.recordEdge ⟨site s xs, site s (xs ++ [x]), x⟩).2 (xs ++ [x]) := by
  refine .inr fun before last hlast => ?_
  obtain ⟨rfl, rfl⟩ := List.append_singleton_inj.1 hlast
  exact ⟨site s xs, Graph.mem_recordEdge.2 (.inl rfl), Graph.knows_recordEdge.2 hk⟩

theorem Listed.grow (h : Listed s V N g fp m) (hg : g.Grows g') : Listed s V N g' fp m :=
  { h with entered := h.entered.grow hg }

theorem charted_empty (seed : UInt64) : Charted s V N (.empty seed) where
  wired := Graph.wired_empty seed
  node h := by cases h
  edge {t} h := by simp [Graph.empty] at h
  top := by
    rintro k ⟨m, hm, -⟩
    cases hm

theorem Charted.like (h : Charted s V N g) (depthTimes : Std.TreeMap Nat Float)
    (sampler : Sampler) : Charted s V N { g with depthTimes, sampler } where
  wired := h.wired.like depthTimes sampler
  node hm := (h.node hm).grow ⟨id, id⟩
  edge := h.edge
  top := h.top

theorem Charted.quiet {r r' : Run UpDown} (h : Charted s V N r.graph) (hq : Quiet r r') :
    Charted s V N r'.graph := by
  obtain ⟨σ, hσ⟩ := hq.graph
  rw [hσ]
  exact h.like _ σ

/-- A transition between histories in sight may be stored. -/
theorem Charted.recordEdge (h : Charted s V N g) (hxs : V xs) (hx : V (xs ++ [x]))
    (hl : xs.length < N) :
    Charted s V N (g.recordEdge ⟨site s xs, site s (xs ++ [x]), x⟩).2 := by
  have hgrows := g.grows_recordEdge ⟨site s xs, site s (xs ++ [x]), x⟩
  have hwired := Graph.wired_recordEdge h.wired ⟨site s xs, site s (xs ++ [x]), x⟩
  have hedge : ∀ t ∈ (g.recordEdge ⟨site s xs, site s (xs ++ [x]), x⟩).2.transitions,
      ∃ xs, V xs ∧ V (xs ++ [t.action]) ∧ xs.length < N ∧ site s xs = t.source ∧
        site s (xs ++ [t.action]) = t.target := fun t ht => by
    rcases Graph.mem_recordEdge.1 ht with rfl | ht
    · exact ⟨xs, hxs, hx, hl, rfl, rfl⟩
    · exact h.edge ht
  obtain ⟨_, _, _, _, heq⟩ := g.recordEdge_nodes ⟨site s xs, site s (xs ++ [x]), x⟩
  rw [heq] at hgrows hwired hedge ⊢
  exact {
    wired := hwired
    node := fun hm => (h.node hm).grow hgrows
    edge := hedge _
    top := h.top }

section
variable (hV : Apart s V n)
include hV

/-- Under the fingerprint of a climb there is no other history. -/
theorem Charted.actions_eq (h : Charted s V N g) (hk : k ≤ n)
    (hm : g.node? (site s (climb k)) = some m) : m.actions = climb k :=
  hV _ k (h.node hm).sight hk (h.node hm).site_eq

/-- Once the top of the climb is known, its node is the best. -/
theorem Charted.best_climb (h : Charted s V N g) (hN : N ≤ n) {j : ℕ}
    (hk : g.Knows (site s (climb N)) j) :
    ∃ m, g.node? (site s (climb N)) = some m ∧ g.bestNode? = some m ∧ m.actions = climb N := by
  obtain ⟨m, hm, -⟩ := id hk
  refine ⟨m, hm, ?_, h.actions_eq hV hN hm⟩
  unfold Graph.bestNode?
  rw [h.top hk]
  exact hm

end

/-- Only the climb itself has the score of its top already. -/
theorem Charted.best_of_not_improves (hs : s.toNat + N < 2 ^ 32) (h : Charted s V N g)
    (hno : ¬ g.improves (after s (climb N)).score.toFloat) : g.best = some (site s (climb N)) := by
  rw [Graph.improves_iff] at hno
  push Not at hno
  obtain ⟨best, hbest, hno⟩ := hno
  obtain ⟨hfp, hnode⟩ := h.wired.node?_best hbest
  have hlisted := h.node hnode
  rw [hlisted.score_eq, toFloat_lt_iff] at hno
  have hclimb : best.actions = climb N := by
    by_contra hne
    exact hno (score_lt_climb hs hlisted.length hne)
  rw [hfp, ← hlisted.site_eq, hclimb]

section
variable (hs : s.toNat + n < 2 ^ 32) (hV : Apart s V n) (hN : N ≤ n)
include hs hV hN

/-- Nothing else scores as high as the top of the climb. -/
theorem Charted.not_improves (h : Charted s V N g) {j : ℕ} (hk : g.Knows (site s (climb N)) j)
    (hl : xs.length ≤ N) (hne : xs ≠ climb N) : ¬ g.improves (after s xs).score.toFloat := by
  obtain ⟨m, hm, hbest, hclimb⟩ := h.best_climb hV hN hk
  have hlt : (after s xs).score < (after s (climb N)).score := score_lt_climb (by omega) hl hne
  rw [Graph.improves_iff]
  intro himproves
  have hup := himproves m hbest
  rw [(h.node hm).score_eq, hclimb, toFloat_lt_iff] at hup
  exact UInt32.lt_asymm hlt hup

/-- The top of the climb stays the best state, or becomes it when it is recorded. -/
theorem Charted.best_store (h : Charted s V N g) (hxs : V xs) (hl : xs.length ≤ N) {time : Float}
    {j : ℕ} (hk : (g.store ⟨site s xs, xs, (after s xs).score.toFloat, time, false⟩).Knows
      (site s (climb N)) j) :
    (g.store ⟨site s xs, xs, (after s xs).score.toFloat, time, false⟩).best =
      some (site s (climb N)) := by
  show (if g.improves (after s xs).score.toFloat then some (site s xs) else g.best) = _
  by_cases htop : xs = climb N
  · subst xs
    split
    · rfl
    · next hno => exact Charted.best_of_not_improves (by omega) h hno
  · have hsite : site s (climb N) ≠ site s xs := fun heq => htop (hV xs N hxs hN heq.symm)
    have hold : g.Knows (site s (climb N)) j :=
      (Graph.knows_store.1 hk).elim (fun h => absurd h.1 hsite) And.right
    rw [if_neg (h.not_improves hs hV hN hold hl htop), h.top hold]

/-- A state in sight may be recorded with its score. -/
theorem Charted.record (h : Charted s V N g) (hxs : V xs) (hl : xs.length ≤ N)
    (he : Found s g xs) (time : Float) :
    Charted s V N (g.record (site s xs) xs (after s xs).score.toFloat time).2 := by
  have hgrows := g.grows_record (site s xs) xs (after s xs).score.toFloat time
  have hwired := Graph.wired_record h.wired (site s xs) xs (after s xs).score.toFloat time
  rcases g.record_cases (site s xs) xs (after s xs).score.toFloat time with ⟨hk, hg⟩ | ⟨-, hg⟩
  swap
  · rwa [hg]
  rw [hg] at hgrows hwired ⊢
  refine ⟨hwired, fun {fp m} hm => ?_, h.edge, fun hk => h.best_store hs hV hN hxs hl hk⟩
  rw [Graph.node?_store] at hm
  split at hm
  · next hfp =>
    cases hm
    exact ⟨hxs, hl, hfp.symm, rfl, hfp ▸ (he.resolve_left hk).grow hgrows⟩
  · exact (h.node hm).grow hgrows

end

section
variable (hV : Apart s V n)
include hV

/-- A higher top is not known yet. -/
theorem Charted.mono (h : Charted s V N g) (hN : N ≤ k) (hk : k ≤ n) : Charted s V k g where
  wired := h.wired
  node hm := { h.node hm with length := (h.node hm).length.trans hN }
  edge ht := by
    obtain ⟨xs, hxs, hx, hl, hsite⟩ := h.edge ht
    exact ⟨xs, hxs, hx, hl.trans_le hN, hsite⟩
  top {j} hj := by
    obtain ⟨m, hm, -⟩ := id hj
    have hlength := (h.node hm).length
    rw [h.actions_eq hV hk hm, List.length_replicate] at hlength
    obtain rfl := Nat.le_antisymm hN hlength
    exact h.top hj

/-- From a climb that is known, `up` alone remains to the top. -/
theorem Charted.remaining_climb (h : Charted s V N g) (hN : N ≤ n) (hi : i ≤ N) {j : ℕ}
    (hbase : g.Knows (site s (climb i)) j) (htop : g.Knows (site s (climb N)) k) :
    g.remaining (site s (climb i)) = climb (N - i) := by
  obtain ⟨base, hbase, -⟩ := hbase
  obtain ⟨best, hbest, hbestNode, hbestActions⟩ := h.best_climb hV hN htop
  have hbaseActions := h.actions_eq hV (hi.trans hN) hbase
  have hprefix : climb i <+: climb N :=
    ⟨climb (N - i), by rw [← List.replicate_add, Nat.add_sub_of_le hi]⟩
  unfold Graph.remaining
  rw [hbestNode, hbase]
  dsimp only
  rw [h.wired.keyed hbest, hbaseActions, hbestActions, List.length_replicate, List.drop_replicate]
  by_cases hne : site s (climb N) = site s (climb i)
  · have hlen := congrArg List.length (h.actions_eq hV hN (m := base) (by rw [hne, hbase]))
    rw [hbaseActions, List.length_replicate, List.length_replicate] at hlen
    rw [if_neg fun hc => hc.1 hne, hlen, Nat.sub_self]
    rfl
  · rw [if_pos ⟨hne, List.isPrefixOf_iff_prefix.2 hprefix⟩]

/-- The scores along a climb, from its foot. -/
def climbScores (s : UInt32) (k : ℕ) : List Float :=
  (List.range (k + 1)).map fun i => (s + i.toUInt32).toFloat

/-- The way back from a climb is the climb. -/
theorem Charted.chain (h : Charted s V N g) {ns : List Node} (hk : k ≤ n)
    (hm : m.actions = climb k) (hc : g.Chain (m :: ns) xs) :
    xs = climb k ∧ ((m :: ns).map (·.score)).reverse = climbScores s k := by
  induction k generalizing m ns xs with
  | zero =>
    cases hc with
    | root hm' _ =>
      refine ⟨rfl, ?_⟩
      rw [List.map_singleton, (h.node hm').score_eq, hm]
      rfl
    | step _ hlast => simp [hm] at hlast
  | succ k ih =>
    have hsucc : climb (k + 1) = climb k ++ ["up"] := List.replicate_succ'
    cases hc with
    | root _ hnil => simp [hm, List.replicate_succ] at hnil
    | @step _ m' ns x xs hm' hlast ht _ hc =>
      have hlisted := h.node hm'
      rw [hm, hsucc, List.getLast?_concat, Option.some.injEq] at hlast
      subst hlast
      -- the transition is the last step of the climb, since its target is the climb
      obtain ⟨zs, -, hz, -, hsource, htarget⟩ := h.edge ht
      have htop := hV _ (k + 1) hz hk (by rw [htarget, ← hlisted.site_eq, hm])
      rw [hsucc] at htop
      obtain rfl := List.append_cancel_right htop
      have hnode := hc.mem_node List.mem_cons_self
      obtain ⟨rfl, hscores⟩ := ih (by omega)
        (h.actions_eq hV (by omega) (hsource ▸ hnode)) hc
      refine ⟨List.replicate_succ.symm, ?_⟩
      rw [List.map_cons, List.reverse_cons, hscores, hlisted.score_eq, hm]
      unfold climbScores
      rw [List.range_succ (n := k + 1), List.map_append]
      simp [after]

end

/-! ## Exploring -/

variable {st : Setting UpDownEvaluator} {p : ExpandParams} {r : Run UpDown}

/-- Where a search in this world cannot fail. -/
abbrev NoError : SearchError → Run UpDown → Prop := fun _ _ => False

/-- All histories of at most `k` of the actions `F` after `xs` are in sight. -/
def Sees (V : List String → Prop) (F : List String) (k : ℕ) (xs : List String) : Prop :=
  ∀ zs, zs.length ≤ k → (∀ z ∈ zs, z ∈ F) → V (xs ++ zs)

theorem Sees.here {F : List String} (h : Sees V F k xs) : V xs := by
  have := h [] (Nat.zero_le k) (List.forall_mem_nil _)
  rwa [List.append_nil] at this

theorem Sees.step {F : List String} (h : Sees V F (k + 1) xs) (hx : x ∈ F) :
    Sees V F k (xs ++ [x]) := fun zs hzs hF => by
  rw [List.append_assoc]
  exact h (x :: zs) (Nat.succ_le_succ hzs) (List.forall_mem_cons.2 ⟨hx, hF⟩)

section
variable (hs : s.toNat + n < 2 ^ 32) (hV : Apart s V n) (hN : N ≤ n)
include hs hV hN

theorem visit_charts (h : Charted s V N r.graph) (hxs : V xs) (hl : xs.length ≤ N)
    (he : Found s r.graph xs) :
    Ends (visit st p (after s xs)) r (fun _ r' => Charted s V N r'.graph ∧
      r.graph.Grows r'.graph ∧ r'.graph.Knows (site s xs) xs.length) NoError := by
  refine (visit_ends st p (after s xs)).imp (fun _ r' hv => ?_) fun e r' he => ?_
  · refine ⟨?_, hv.grows, hv.knows_iff.2 (.inr ⟨rfl, le_rfl⟩)⟩
    obtain ⟨y, time, times, σ, hy, -, -, hg, -⟩ := hv
    cases hy
    rw [hg]
    exact (h.like times σ).record hs hV hN hxs hl he time
  · exact not_blames he.2.2

/-- **Exploration** of a state in sight keeps the graph a graph of histories in sight, and
    comes to know the climb from there. -/
theorem explore_climbs (hw : WideEnough p.ranking p.width) (hp : Unhurried st p) :
    ∀ (k : ℕ) {xs : List String} {r : Run UpDown},
      Sees V (followed p.ranking p.width) k xs → xs.length + k ≤ N → Charted s V N r.graph →
      Found s r.graph xs →
      Ends (explore st p k (after s xs)) r (fun _ r' => Charted s V N r'.graph ∧
        r.graph.Grows r'.graph ∧
        ∀ j ≤ k, r'.graph.Knows (site s (xs ++ climb j)) (xs.length + j)) NoError
  | 0, xs, r, hsees, hl, h, he => by
    refine (visit_charts hs hV hN h hsees.here hl he).imp_ok ?_
    rintro _ r' ⟨h', hgrows, hk⟩
    refine ⟨h', hgrows, fun j hj => ?_⟩
    obtain rfl := Nat.le_zero.1 hj
    simpa using hk
  | k + 1, xs, r, hsees, hl, h, he => by
    refine Ends.bind (visit_charts hs hV hN h hsees.here (by omega) he) ?_
    rintro _ r₁ ⟨h₁, hgrows₁, hk₁⟩
    refine Ends.bind (expired_ends p) fun late r₂ ⟨hq₂, hlate⟩ => ?_
    rw [if_neg (by rw [hlate hp]; exact Bool.false_ne_true)]
    refine Ends.bind ((choose_ends st p (after s xs)).imp_error
      fun _ _ he => not_blames he.2) fun ys r₃ ⟨hq₃, hys⟩ => ?_
    have hq := hq₂.trans hq₃
    have hk₃ := hq.grows.knows hk₁
    have hscore : (after s xs).score.toNat + 1 < 2 ^ 32 := by
      have hcount : xs.count "up" ≤ xs.length := List.count_le_length
      rw [toNat_score (by omega)]
      omega
    obtain ⟨hup, hfollowed⟩ := followed_of_chosen hw hscore hys
    -- the climb is known as soon as the child that `up` leads to is done
    refine (ends_forM (fun done r' => Charted s V N r'.graph ∧ r₃.graph.Grows r'.graph ∧
      ("up" ∈ done → ∀ j ≤ k, r'.graph.Knows (site s (xs ++ climb (j + 1)))
        (xs.length + (j + 1)))) ys [] ⟨h₁.quiet hq, .refl _, by simp⟩
      fun y hy done r₄ ⟨h₄, hgrows₄, hdone⟩ => ?_).imp_ok ?_
    · have hmove : Moves (after s xs) y (after s (xs ++ [y])) :=
        moves_after (mem_of_followed (hfollowed y hy))
      refine Ends.bind (stepped_ok hmove) ?_
      rintro _ r₄ ⟨rfl, rfl⟩
      refine ends_bind.2 (ends_changeGraph.2 ?_)
      have hchild := hsees.step (hfollowed y hy)
      have hedge := r₄.graph.grows_recordEdge ⟨site s xs, site s (xs ++ [y]), y⟩
      have hlength : (xs ++ [y]).length = xs.length + 1 := List.length_append
      refine (explore_climbs hw hp k hchild (by omega)
        (h₄.recordEdge hsees.here hchild.here (by omega))
        (found_recordEdge (hgrows₄.knows hk₃))).imp_ok ?_
      rintro _ r₅ ⟨h₅, hgrows₅, hk₅⟩
      refine ⟨h₅, (hgrows₄.trans hedge).trans hgrows₅, fun hmem j hj => ?_⟩
      rcases List.mem_append.1 hmem with hmem | hmem
      · exact hgrows₅.knows (hedge.knows (hdone hmem j hj))
      · obtain rfl := List.mem_singleton.1 hmem
        have hknows := hk₅ j hj
        rwa [List.append_assoc, List.singleton_append, ← List.replicate_succ, hlength, add_assoc,
          add_comm 1 j] at hknows
    · rintro _ r' ⟨h', hgrows', hk'⟩
      refine ⟨h', (hgrows₁.trans hq.grows).trans hgrows', fun j hj => ?_⟩
      cases j with
      | zero => simpa using hgrows'.knows hk₃
      | succ j => exact hk' hup j (by omega)

end

end

end ScheduleSearch.UpDown

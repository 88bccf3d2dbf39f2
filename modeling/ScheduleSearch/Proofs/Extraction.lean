/-
  The table of a grown graph.

  * `Rewarded ev a actions rewards`: the rewards are the scores of the states on the
    way of the actions, with that of `a` first;
  * `Grown.replays_chain`, `Grown.rewarded_chain`: a chain of a grown graph can be
    replayed from the root, although recorded actions may have been replaced since
    its transitions were stored, and its scores are those on the way;
  * `Sound`: what a table promises by itself, and `Highest`: what it promises about
    the states that were scored;
  * **`finish_sound`**: a search that grew its graph ends with such a table.
-/
import ScheduleSearch.Proofs.Growth

namespace ScheduleSearch

open Agent SearchM

variable {α ε : Type} [Agent α] [Evaluator ε α] {ev : ε} {root a b : α} {n : Nat} {g : Graph}
  {xs ys : List String} {rs ss : List Float} {x : String} {y : Float}

/-! ## Rewards along a way -/

/-- The rewards are the scores of the states on the way. -/
structure Rewarded (ev : ε) (a : α) (actions : List String) (rewards : List Float) : Prop where
  length_eq : rewards.length = actions.length + 1
  scores {i : Nat} {x : Float} {b : α} : rewards[i]? = some x → Replays a (actions.take i) b →
    Scores ev b x

theorem Rewarded.concat (h : Rewarded ev a xs rs)
    (hy : ∀ b, Replays a (xs ++ [x]) b → Scores ev b y) :
    Rewarded ev a (xs ++ [x]) (rs ++ [y]) where
  length_eq := by simp [h.length_eq]
  scores {i z b} hz hb := by
    have hl := h.length_eq
    rcases Nat.lt_or_ge i rs.length with hi | hi
    · rw [List.getElem?_append_left hi] at hz
      rw [List.take_append_of_le_length (by omega)] at hb
      exact h.scores hz hb
    · rw [List.getElem?_append_right hi, List.getElem?_singleton] at hz
      split at hz
      · cases hz
        rw [List.take_of_length_le (by rw [List.length_append, List.length_singleton]; omega)] at hb
        exact hy b hb
      · cases hz

theorem Rewarded.append (h : Rewarded ev a xs rs) (hb : Replays a xs b)
    (h' : Rewarded ev b ys ss) : Rewarded ev a (xs ++ ys) (rs ++ ss.drop 1) where
  length_eq := by
    have := h.length_eq
    have := h'.length_eq
    rw [List.length_append, List.length_append, List.length_drop]
    omega
  scores {i z c} hz hc := by
    have hl := h.length_eq
    rcases Nat.lt_or_ge i rs.length with hi | hi
    · rw [List.getElem?_append_left hi] at hz
      rw [List.take_append_of_le_length (by omega)] at hc
      exact h.scores hz hc
    · obtain ⟨j, rfl⟩ : ∃ j, i = xs.length + j := ⟨i - xs.length, by omega⟩
      rw [List.getElem?_append_right hi, List.getElem?_drop,
        show 1 + (xs.length + j - rs.length) = j by omega] at hz
      rw [List.take_length_add_append] at hc
      obtain ⟨b', hb', hc⟩ := replays_append.1 hc
      obtain rfl := hb'.unique hb
      exact h'.scores hz hc

/-- The last reward is the score at the end. -/
theorem Rewarded.getLast? (h : Rewarded ev a xs rs) (hb : Replays a xs b)
    (hy : rs.getLast? = some y) : Scores ev b y := by
  rw [List.getLast?_eq_getElem?, h.length_eq, Nat.add_sub_cancel] at hy
  exact h.scores hy (by rwa [List.take_length])

/-- A cleared history does not change the scores on the way. -/
theorem Rewarded.remember (hf : Forgetful ev root n) (ha : Within root n a)
    (h : Rewarded ev (forget a) xs rs) (hb : Replays (forget a) xs b) : Rewarded ev a xs rs where
  length_eq := h.length_eq
  scores {i z c} hz hc := by
    obtain ⟨d, hd⟩ := hb.before (List.take_prefix i xs)
    obtain ⟨c', hc', hs⟩ := hf ha hd
    obtain rfl := hc'.unique hc
    exact (hs z).2 (h.scores hz hd)

/-! ## Chains of a grown graph -/

section
variable {ns : List Node} {m : Node} (hw : World root n) (h : Grown ev root n g)
include hw h

/-- A state that is reached by recorded actions. -/
theorem Grown.reached (hm : g.node? m.fingerprint = some m) {c : α} (hc : Within root n c)
    (hfp : fingerprint c = m.fingerprint) :
    (SteadyScores ev root n → Scores ev c m.score) ∧
      ∃ b, Replays root m.actions b ∧ dump b = dump c := by
  obtain ⟨b, hb, hbfp, hs⟩ := (h.node hm).state
  have hbn := hb.within (h.node hm).length
  have hd := hw.distinct hbn hc (hbfp.trans hfp.symm)
  exact ⟨fun hst => hst.same hbn hc hd hs, b, hb, hd⟩

theorem Grown.replays_chain (hc : g.Chain (m :: ns) xs) :
    ∃ b, Replays root xs.reverse b ∧ fingerprint b = m.fingerprint := by
  induction xs generalizing m ns with
  | nil =>
    cases hc with
    | root hm h0 =>
      obtain ⟨b, hb, hfp, -⟩ := (h.node hm).state
      rw [h0] at hb
      exact ⟨b, hb, hfp⟩
  | cons x xs ih =>
    cases hc with
    | @step _ k _ _ _ hm _ ht hlt hc =>
      obtain ⟨b, hb, hfp⟩ := ih hc
      obtain ⟨i, b', c', hi, hb', hm', hsrc, htgt⟩ := h.edge ht
      have hl := hc.length_le
      have hbn : Within root n b := hb.within (by
        have := (h.node hm).length
        rw [List.length_reverse]
        omega)
      have hd := hw.distinct (hb'.mono hi.le) hbn (hsrc.trans hfp.symm)
      obtain ⟨c, hc, hdc⟩ := hw.congr (hb'.mono hi.le) hbn hd hm'
      refine ⟨c, ?_, (World.fingerprint_congr hdc).symm.trans htgt⟩
      rw [List.reverse_cons]
      exact replays_concat.2 ⟨b, hb, hc⟩

theorem Grown.rewarded_chain (hst : SteadyScores ev root n) (hc : g.Chain (m :: ns) xs) :
    Rewarded ev root xs.reverse ((m :: ns).map (·.score)).reverse := by
  have hend : ∀ {m ns xs}, g.Chain (m :: ns) xs → g.node? m.fingerprint = some m →
      ∀ b, Replays root xs.reverse b → Scores ev b m.score := fun {m ns xs} hc hm b hb => by
    obtain ⟨b', hb', hfp⟩ := h.replays_chain hw hc
    obtain rfl := hb'.unique hb
    have hl := hc.length_le
    have := (h.node hm).length
    exact (h.reached hw hm (hb.within (by rw [List.length_reverse]; omega)) hfp).1 hst
  induction xs generalizing m ns with
  | nil =>
    have hcm := hc
    cases hc with
    | root hm h0 =>
      refine ⟨rfl, fun {i z b} hz hb => ?_⟩
      rw [List.map_singleton, List.reverse_singleton, List.getElem?_singleton] at hz
      split at hz
      · cases hz
        refine hend hcm hm b ?_
        rwa [List.reverse_nil, List.take_nil] at hb
      · cases hz
  | cons x xs ih =>
    have hcm := hc
    cases hc with
    | @step _ k _ _ _ hm _ ht hlt hc =>
      rw [List.map_cons, List.reverse_cons, List.reverse_cons]
      refine (ih hc).concat fun b hb => hend hcm hm b ?_
      rwa [List.reverse_cons]

end

/-! ## Tables -/

namespace Table

variable {t next : Table}

theorem map_action_rows (hr : t.actions.length ≤ t.rewards.length)
    (ht : t.actions.length ≤ t.times.length) : t.rows.map (·.action) = t.actions := by
  refine List.ext_getElem ?_ fun i h _ => ?_
  · rw [List.length_map, length_rows]
    omega
  · simp [rows]

theorem map_reward_rows (ha : t.rewards.length ≤ t.actions.length)
    (ht : t.rewards.length ≤ t.times.length) : t.rows.map (·.reward) = t.rewards := by
  refine List.ext_getElem ?_ fun i h _ => ?_
  · rw [List.length_map, length_rows]
    omega
  · simp [rows]

/-- The columns are of one length, but perhaps for times of further depths, and the
    actions start with an empty one. -/
structure Full (t : Table) : Prop where
  actions_eq : t.actions = "" :: t.path
  rewards_eq : t.rewards.length = t.path.length + 1
  times_le : t.path.length + 1 ≤ t.times.length

theorem Full.columns (h : t.Full) :
    t.rows.map (·.action) = "" :: t.path ∧ t.rows.map (·.reward) = t.rewards := by
  have ha := congrArg List.length h.actions_eq
  have hr := h.rewards_eq
  have ht := h.times_le
  rw [List.length_cons] at ha
  rw [map_action_rows (by omega) (by omega), map_reward_rows (by omega) (by omega)]
  exact ⟨h.actions_eq, rfl⟩

theorem Full.length_rows (h : t.Full) : t.rows.length = t.path.length + 1 := by
  have := congrArg List.length h.columns.1
  rwa [List.length_map, List.length_cons] at this

theorem Full.path_concat (h : t.Full) (h' : next.Full) (offset : Float) :
    (t.concat next offset).actions = "" :: (t.path ++ next.path) ∧
      (t.concat next offset).path = t.path ++ next.path := by
  have hactions : (t.concat next offset).actions =
      t.rows.map (·.action) ++ (next.rows.map (·.action)).drop 1 := by
    simp [concat, ofRows, Function.comp_def]
  rw [h.columns.1, h'.columns.1] at hactions
  exact ⟨hactions, by rw [path, hactions]; rfl⟩

theorem Full.rewards_concat (h : t.Full) (h' : next.Full) (offset : Float) :
    (t.concat next offset).rewards = t.rewards ++ next.rewards.drop 1 := by
  have hrewards : (t.concat next offset).rewards =
      t.rows.map (·.reward) ++ (next.rows.map (·.reward)).drop 1 := by
    simp [concat, ofRows, Function.comp_def]
  rw [hrewards, h.columns.2, h'.columns.2]

theorem Full.length_times_concat (h : t.Full) (h' : next.Full) (offset : Float) :
    (t.concat next offset).times.length = (t.concat next offset).path.length + 1 := by
  have := h.length_rows
  have := h'.length_rows
  rw [(h.path_concat h' offset).2, concat, ofRows, List.length_map, List.length_append,
    List.length_map, List.length_drop, List.length_append]
  omega

theorem Full.concat (h : t.Full) (h' : next.Full) (offset : Float) :
    (t.concat next offset).Full := by
  obtain ⟨hactions, hpath⟩ := h.path_concat h' offset
  refine ⟨by rw [hactions, hpath], ?_, (h.length_times_concat h' offset).ge⟩
  have := h.rewards_eq
  have := h'.rewards_eq
  rw [hpath, h.rewards_concat h' offset, List.length_append, List.length_append, List.length_drop]
  omega

end Table

/-- A table whose path can be taken from `root` in at most `n` actions, and whose
    rewards are the scores on the way, as long as scores do not vary. -/
structure Sound (ev : ε) (root : α) (n : Nat) (t : Table) : Prop where
  actions_eq : t.actions = "" :: t.path
  rewards_eq : t.rewards.length = t.path.length + 1
  times_le : t.path.length + 1 ≤ t.times.length
  length_le : t.path.length ≤ n
  replays : ∃ b, Replays root t.path b
  rewarded : SteadyScores ev root n → Rewarded ev root t.path t.rewards

theorem Sound.full {t : Table} (h : Sound ev root n t) : t.Full :=
  ⟨h.actions_eq, h.rewards_eq, h.times_le⟩

/-- A table ends with the highest of the scores that were asked for. -/
structure Highest (ev : ε) (new : List (Scored α)) (t : Table) (last : Float) : Prop where
  last_eq : t.finalReward? = some last
  asked : ∃ e ∈ new, Answered ev e last
  others (e : Scored α) : e ∈ new → ∃ x, Answered ev e x ∧ x ≤ last
  rewards (x : Float) : x ∈ t.rewards → x ≤ last

section
variable {ev : ε} {new new' : List (Scored α)} {t t' : Table} {last last' : Float}
  (h : Highest ev new t last) (h' : Highest ev new' t' last')
include h h'

omit [Agent α] in
theorem Highest.append_left (hle : last' ≤ last) : Highest ev (new ++ new') t last where
  last_eq := h.last_eq
  asked := by
    obtain ⟨e, he, hx⟩ := h.asked
    exact ⟨e, List.mem_append_left _ he, hx⟩
  others e he := by
    rcases List.mem_append.1 he with he | he
    · exact h.others e he
    · obtain ⟨x, hx, hxl⟩ := h'.others e he
      exact ⟨x, hx, FloatOrder.trans hxl hle⟩
  rewards := h.rewards

omit [Agent α] in
theorem Highest.append_right (hle : last ≤ last') : Highest ev (new ++ new') t' last' where
  last_eq := h'.last_eq
  asked := by
    obtain ⟨e, he, hx⟩ := h'.asked
    exact ⟨e, List.mem_append_right _ he, hx⟩
  others e he := by
    rcases List.mem_append.1 he with he | he
    · obtain ⟨x, hx, hxl⟩ := h.others e he
      exact ⟨x, hx, FloatOrder.trans hxl hle⟩
    · exact h'.others e he
  rewards := h'.rewards

end

/-- A search that logged `before` earlier, and returned a table. -/
structure Returned (ev : ε) (root : α) (n : Nat) (before : List (Scored α)) (t : Table)
    (r : Run α) : Prop where
  sound : Sound ev root n t
  highest : SteadyScores ev root n → ∃ new last, r.trace.scored.toList = before ++ new ∧
    Highest ev new t last

/-- **The end of a search** that grew its graph from `root`: a table of a way from
    there to the best of the states that were scored. -/
theorem finish_sound {s : Setting ε} {c : CheckedConfig} {strategy : String} {start : Nat}
    {before : List (Scored α)} {r : Run α} {E : SearchError → Run α → Prop} (hw : World root n)
    (h : Growing s.evaluator root n before r) (hn : ∃ fp m, r.graph.node? fp = some m) :
    Ends (finish s c strategy start) r
      (fun t r' => Returned s.evaluator root n before t r' ∧ r.graph.Remarked r'.graph) E := by
  refine (finish_ends h.grown.wired (fun _ _ hm => (h.grown.node hm).entered) hn).imp_ok ?_
  rintro t r' ⟨hlog, hmark, best, ns, xs, hbest, hc, rfl⟩
  have hnode := hc.mem_node List.mem_cons_self
  have hrec := h.grown.node hnode
  have hle := hc.length_le
  have hl := hrec.length
  refine ⟨⟨?_, fun hst => ?_⟩, hmark⟩
  · refine ⟨rfl, ?_, ?_, ?_, ?_, fun hst => h.grown.rewarded_chain hw hst hc⟩
    · have := hc.length_eq
      simpa [Table.path] using this
    · have := Graph.lt_length_depthTimeCurve_iff.2 ⟨_, hrec.timed, le_rfl⟩
      simp only [Table.path, List.drop_one, List.tail_cons, List.length_reverse]
      omega
    · simp only [Table.path, List.drop_one, List.tail_cons, List.length_reverse]
      omega
    · obtain ⟨b, hb, -⟩ := h.grown.replays_chain hw hc
      exact ⟨b, hb⟩
  · obtain ⟨new, hnew, hlogs⟩ := h.logs
    refine ⟨new, best.score, by rw [hlog, hnew], by simp [Table.finalReward?], ?_, fun e he => ?_,
      fun x hx => ?_⟩
    · obtain ⟨e, he, -, hx⟩ := hlogs.scored hnode
      exact ⟨e, he, hx⟩
    · obtain ⟨hwithin, ⟨x, hx⟩, k, m, hm, -⟩ := hlogs.known e he
      have hkey := h.grown.wired.keyed hm
      have hsx := (h.grown.reached hw (by rw [hkey]; exact hm) hwithin hkey.symm).1 hst
      refine ⟨x, hx, ?_⟩
      rw [hst.unique hwithin hx.scores hsx]
      exact h.grown.peak hst best hbest _ m hm
    · obtain ⟨m, hm, rfl⟩ := List.mem_map.1 (List.mem_reverse.1 hx)
      exact h.grown.peak hst best hbest _ m (hc.mem_node hm)

end ScheduleSearch

/-
  How many states an expansion scores.

  Exploration goes through known states again, so what it scores is counted along the way
  and not in the graph.  `tour` is exploration that also says where it was: one stop for
  each score that is asked for, with the actions that led there and the candidate actions
  that are offered there.

  * `explore_eq_tour`: a tour is exploration, but for its answer;
  * `Toured` are the stops of a tour as the recursion makes them, and `tour_ends` says that
    without a deadline these are the stops, and that each was scored in turn;
  * `Toured.length_le`: no more stops than a full tree of the width has nodes, and as many
    exactly if every stop above the depth offers enough;
  * `Toured.single`: with width one, the stops lie on one sequence of actions;
  * **`expand_visits`**: so much for an expansion.
-/
import Mathlib.Algebra.Order.Ring.GeomSum
import Mathlib.Data.List.Infix
import ScheduleSearch.Proofs.UpDownWorld

namespace ScheduleSearch

open Agent

/-! ## Tours -/

/-- Where a state is scored. -/
structure Stop (α : Type) where
  /-- the actions that led to the state -/
  path : List String
  state : α
  /-- the candidate actions of the state, before the width cuts them off -/
  offered : List String

namespace SearchM

variable {α ε β γ : Type} [Agent α] [Evaluator ε α]

/-- The candidate actions of a state at a turn: its ranking, or what it lists. -/
def offers (s : Setting ε) (p : ExpandParams) (turn : Nat) (a : α) : List String :=
  if p.ranking then
    match Evaluator.rank s.evaluator turn a p.mode with
    | .ok ranked => ranked.map (·.action)
    | .error _ => []
  else available a

/-- The stop at a state that was just scored. -/
def stop (s : Setting ε) (p : ExpandParams) (path : List String) (a : α) : SearchM α (Stop α) :=
  return ⟨path, a, offers s p (← get).trace.scored.size a⟩

/-- Explores, and says where it was: first the state, then what is below each action that is
    followed. -/
def tour (s : Setting ε) (p : ExpandParams) :
    Nat → List String → α → SearchM α (List (Stop α))
  | 0, path, a => do
    visit s p a
    return [← stop s p path a]
  | depth + 1, path, a => do
    visit s p a
    let here ← stop s p path a
    if ← expired s p then return [here]
    else
      let below ← (← choose s p a).mapM fun action => do
        let child ← stepped a action
        changeGraph fun g => (g.recordEdge ⟨fingerprint a, fingerprint child, action⟩).2
        tour s p depth (path ++ [action]) child
      return here :: below.flatten

variable {s : Setting ε} {p : ExpandParams} {a b : α} {path : List String} {depth turn : Nat}
  {r : Run α} {E : SearchError → Run α → Prop}

omit [Agent α] in
theorem forM_eq_mapM {f : β → SearchM α PUnit} {g : β → SearchM α γ} {xs : List β}
    (h : ∀ x ∈ xs, f x = g x >>= fun _ => pure ⟨⟩) :
    xs.forM f = xs.mapM g >>= fun _ => pure ⟨⟩ := by
  induction xs with
  | nil => rfl
  | cons x xs ih =>
    show (f x >>= fun _ => xs.forM f) = _
    rw [List.mapM_cons, h x List.mem_cons_self, ih fun y hy => h y (List.mem_cons_of_mem _ hy)]
    simp only [bind_assoc, pure_bind]

theorem stop_bind (s : Setting ε) (x : SearchM α γ) : (stop s p path a >>= fun _ => x) = x := rfl

/-- **A tour** is exploration, but for its answer. -/
theorem explore_eq_tour (s : Setting ε) (p : ExpandParams) (depth : Nat) (path : List String)
    (a : α) : explore s p depth a = tour s p depth path a >>= fun _ => pure ⟨⟩ := by
  induction depth generalizing path a with
  | zero =>
    unfold explore tour
    simp only [bind_assoc, pure_bind, stop_bind s]
    exact (bind_pure (visit s p a)).symm
  | succ depth ih =>
    unfold explore tour
    rw [bind_assoc]
    refine bind_congr fun _ => ?_
    rw [bind_assoc, ← stop_bind s (expired s p >>= _)]
    refine bind_congr fun here => ?_
    rw [bind_assoc]
    refine bind_congr fun late => ?_
    cases late with
    | true => exact (pure_bind _ _).symm
    | false =>
      show (choose s p a >>= _) = (choose s p a >>= _) >>= _
      rw [bind_assoc]
      refine bind_congr fun xs => ?_
      rw [bind_assoc]
      simp only [pure_bind]
      refine forM_eq_mapM fun x _ => ?_
      rw [bind_assoc]
      refine bind_congr fun child => ?_
      rw [bind_assoc, ih (path ++ [x])]

/-! ## The stops of a tour -/

/-- The stops of a tour: the state itself, then those of a tour from each state that one of the
    followed actions makes.  As many are followed as the width allows. -/
def Toured (s : Setting ε) (p : ExpandParams) : Nat → List String → α → List (Stop α) → Prop
  | 0, path, a, stops => ∃ turn, stops = [⟨path, a, offers s p turn a⟩]
  | depth + 1, path, a, stops => ∃ turn xs below,
      stops = ⟨path, a, offers s p turn a⟩ :: below.flatten ∧ xs.Subperm (offers s p turn a) ∧
        xs.length = min p.width (offers s p turn a).length ∧
        List.Forall₂ (fun x stops => ∃ b, Moves a x b ∧ Toured s p depth (path ++ [x]) b stops)
          xs below

/-- The states of the stops were scored, one after the other. -/
def Asked (r r' : Run α) (stops : List (Stop α)) : Prop :=
  ∃ scored, r'.trace.scored.toList = r.trace.scored.toList ++ scored ∧
    scored.map (fun x => (x.state, x.mode)) = stops.map fun v => (v.state, .loopNest)

omit [Agent α] in
theorem Asked.append {r r₁ r₂ : Run α} {stops stops' : List (Stop α)} (h : Asked r r₁ stops)
    (h' : Asked r₁ r₂ stops') : Asked r r₂ (stops ++ stops') := by
  obtain ⟨scored, hlog, hstates⟩ := h
  obtain ⟨scored', hlog', hstates'⟩ := h'
  refine ⟨scored ++ scored', ?_, ?_⟩
  · rw [hlog', hlog, List.append_assoc]
  · rw [List.map_append, hstates, hstates', List.map_append]

omit [Agent α] in
theorem Asked.quiet {r r₁ r₂ : Run α} {stops : List (Stop α)} (h : Asked r r₁ stops)
    (hq : r₂.trace.scored = r₁.trace.scored) : Asked r r₂ stops := by
  unfold Asked
  rwa [hq]

/-- The followed actions are among those that are offered, and as many as the width allows. -/
theorem Chosen.offered {xs : List String} (h : Chosen s p a turn xs) :
    xs.Subperm (offers s p turn a) ∧ xs.length = min p.width (offers s p turn a).length := by
  unfold offers
  cases h with
  | @ranked ranked hr hl =>
    rw [if_pos hr, hl]
    exact ⟨(List.take_sublist _ _).subperm, List.length_take⟩
  | @drawn actions hr hperm =>
    rw [if_neg hr]
    refine ⟨((List.take_sublist _ _).subperm).trans hperm.subperm, ?_⟩
    rw [List.length_take, hperm.length_eq]

theorem stop_ends : Ends (stop s p path a) r
    (fun v r' => r' = r ∧ v = ⟨path, a, offers s p r.trace.scored.size a⟩) E :=
  ⟨rfl, rfl⟩

/-- A visit asks for the score of the state. -/
theorem visit_asked (path : List String) (a : α) : Ends (visit s p a) r
    (fun _ r' => ∀ offered, Asked r r' [⟨path, a, offered⟩]) fun _ _ => True := by
  refine (visit_ends s p a).imp ?_ fun _ _ _ => trivial
  rintro _ r' ⟨x, time, times, sampler, -, -, hlog, -⟩ offered
  exact ⟨[⟨a, .loopNest, .ok x⟩], by rw [hlog, Array.toList_push], rfl⟩

/-- Without a deadline, a tour stops as the recursion goes, and its stops are scored in turn. -/
theorem tour_ends (hp : p.deadline = none) :
    ∀ (depth : Nat) (path : List String) (a : α) (r : Run α), Ends (tour s p depth path a) r
      (fun stops r' => Toured s p depth path a stops ∧ Asked r r' stops) fun _ _ => True := by
  intro depth
  induction depth with
  | zero =>
    intro path a r
    refine Ends.bind (visit_asked path a) fun _ r₁ h₁ => ?_
    refine Ends.bind stop_ends ?_
    rintro here _ ⟨rfl, rfl⟩
    exact ends_pure.2 ⟨⟨_, rfl⟩, h₁ _⟩
  | succ depth ih =>
    intro path a r
    refine Ends.bind (visit_asked path a) fun _ _ h₁ => ?_
    refine Ends.bind stop_ends ?_
    rintro here r₁ ⟨rfl, rfl⟩
    have hpresent : (expired s p : SearchM α Bool) = pure false := by
      unfold expired
      rw [hp]
    rw [hpresent, pure_bind]
    show Ends (choose s p a >>= _) _ _ _
    refine Ends.bind ((choose_ends s p a).imp_error fun _ _ _ => trivial) ?_
    rintro xs r₂ ⟨hq, hchosen⟩
    have hoffered := hchosen.offered
    refine Ends.bind (ends_mapM_rule (fun done below r' =>
      List.Forall₂ (fun x stops => ∃ b, Moves a x b ∧
        Toured s p depth (path ++ [x]) b stops) done below ∧
        Asked r r' (⟨path, a, offers s p r₁.trace.scored.size a⟩ :: below.flatten)) xs [] []
      ⟨.nil, (h₁ _).quiet hq.scored⟩ ?_) ?_
    · rintro x - done below r₃ ⟨hall, hasked⟩
      refine Ends.bind ((stepped_ends a x).imp_error fun _ _ _ => trivial) ?_
      rintro b r₄ ⟨rfl, hb⟩
      refine ends_bind.2 (ends_changeGraph.2 ((ih (path ++ [x]) b _).imp_ok ?_))
      rintro stops r₅ ⟨htoured, hbelow⟩
      refine ⟨List.rel_append hall (.cons ⟨b, hb, htoured⟩ .nil), ?_⟩
      have hbelow : Asked r₄ r₅ [stops].flatten := by
        rw [List.flatten_singleton]
        exact hbelow
      rw [List.flatten_append, ← List.cons_append]
      exact hasked.append hbelow
    · rintro below r₃ ⟨hall, hasked⟩
      exact ends_pure.2 ⟨⟨_, xs, below, rfl, hoffered.1, hoffered.2, hall⟩, hasked⟩

/-! ## Counting stops -/

variable {stops : List (Stop α)}

omit [Agent α] in
theorem forall_of_forall₂ {P : β → γ → Prop} {Q : γ → Prop} {xs : List β} {ys : List γ}
    (h : List.Forall₂ P xs ys) (hQ : ∀ x y, P x y → Q y) : ∀ y ∈ ys, Q y := by
  induction h with
  | nil => exact nofun
  | cons hxy _ ih => exact List.forall_mem_cons.2 ⟨hQ _ _ hxy, ih⟩

/-- A stop lies at the end of its path, which is no longer than the depth. -/
theorem Toured.replays (h : Toured s p depth path a stops) : ∀ v ∈ stops,
    (∃ xs, v.path = path ++ xs ∧ xs.length ≤ depth ∧ Replays a xs v.state) ∧
      ∃ turn, v.offered = offers s p turn v.state := by
  induction depth generalizing path a stops with
  | zero =>
    obtain ⟨turn, rfl⟩ := h
    exact List.forall_mem_singleton.2 ⟨⟨[], by simp, le_rfl, replays_nil.2 rfl⟩, turn, rfl⟩
  | succ depth ih =>
    obtain ⟨turn, xs, below, rfl, -, -, hall⟩ := h
    refine List.forall_mem_cons.2 ⟨⟨⟨[], by simp, Nat.zero_le _, replays_nil.2 rfl⟩, turn, rfl⟩,
      fun v hv => ?_⟩
    obtain ⟨sub, hsub, hv⟩ := List.mem_flatten.1 hv
    obtain ⟨x, b, hb, hsub⟩ := forall_of_forall₂
      (Q := fun sub => ∃ x b, Moves a x b ∧ Toured s p depth (path ++ [x]) b sub) hall
      (fun x _ h => ⟨x, h⟩) sub hsub
    obtain ⟨⟨ys, hpath, hlength, hys⟩, hoffered⟩ := ih hsub v hv
    exact ⟨⟨x :: ys, by simpa using hpath, Nat.succ_le_succ hlength,
      replays_cons.2 ⟨b, hb, hys⟩⟩, hoffered⟩

/-- The nodes of a full tree: one, and those of a full tree below each of its branches. -/
theorem sum_pow_succ (width depth : Nat) : ∑ i ∈ Finset.range (depth + 2), width ^ i =
    1 + width * ∑ i ∈ Finset.range (depth + 1), width ^ i := by
  rw [geom_sum_succ, Nat.add_comm]

/-- A list of lists that are no longer than `n`. -/
theorem length_flatten_le {below : List (List γ)} {n : Nat} (h : ∀ sub ∈ below, sub.length ≤ n) :
    below.flatten.length ≤ below.length * n ∧
      (below.flatten.length = below.length * n ↔ ∀ sub ∈ below, sub.length = n) := by
  induction below with
  | nil => simp
  | cons sub below ih =>
    obtain ⟨hsub, hbelow⟩ := List.forall_mem_cons.1 h
    obtain ⟨hle, heq⟩ := ih hbelow
    rw [List.flatten_cons, List.length_append, List.length_cons, Nat.succ_mul,
      List.forall_mem_cons, ← heq]
    omega

/-- **The number of stops** is at most that of the nodes of a full tree, and the same exactly if
    every stop above the depth offers enough actions. -/
theorem Toured.length_le (h : Toured s p depth path a stops) :
    stops.length ≤ ∑ i ∈ Finset.range (depth + 1), p.width ^ i ∧
      (stops.length = ∑ i ∈ Finset.range (depth + 1), p.width ^ i ↔
        ∀ v ∈ stops, v.path.length < path.length + depth → p.width ≤ v.offered.length) := by
  induction depth generalizing path a stops with
  | zero =>
    obtain ⟨turn, rfl⟩ := h
    simp
  | succ depth ih =>
    obtain ⟨turn, xs, below, rfl, -, hfollowed, hall⟩ := h
    rw [hall.length_eq] at hfollowed
    have hbelow := forall_of_forall₂ hall fun x sub ⟨b, _, hsub⟩ => by
      have := ih hsub
      rwa [List.length_append, List.length_singleton, Nat.add_right_comm] at this
    have hpos : 0 < ∑ i ∈ Finset.range (depth + 1), p.width ^ i := by
      rw [Finset.sum_range_succ']
      simp
    rw [List.length_cons, sum_pow_succ, List.forall_mem_cons]
    generalize ∑ i ∈ Finset.range (depth + 1), p.width ^ i = full at hbelow hpos ⊢
    obtain ⟨hle, heq⟩ := length_flatten_le fun sub hsub => (hbelow sub hsub).1
    have hbranches : below.length * full ≤ p.width * full :=
      Nat.mul_le_mul_right _ (hfollowed ▸ min_le_left _ _)
    have hwide : below.length * full = p.width * full ↔ p.width ≤ (offers s p turn a).length := by
      rw [Nat.mul_left_inj hpos.ne', hfollowed, min_eq_left_iff]
    refine ⟨by omega, ?_⟩
    calc below.flatten.length + 1 = 1 + p.width * full
        ↔ below.length * full = p.width * full ∧
            below.flatten.length = below.length * full := by omega
      _ ↔ p.width ≤ (offers s p turn a).length ∧ ∀ sub ∈ below, sub.length = full := by
        rw [hwide, heq]
      _ ↔ _ := by
        refine and_congr (by simp) ?_
        rw [List.forall_mem_flatten]
        exact forall₂_congr fun sub hsub => (hbelow sub hsub).2

/-- With width one, the stops lie on one sequence of actions, which ends early only where
    nothing is offered. -/
theorem Toured.single (hwidth : p.width = 1) (h : Toured s p depth path a stops) :
    ∃ xs : List String, xs.length ≤ depth ∧ stops.map (·.path) = xs.inits.map (path ++ ·) ∧
      (xs.length < depth → ∃ v ∈ stops.getLast?, v.offered = []) := by
  induction depth generalizing path a stops with
  | zero =>
    obtain ⟨turn, rfl⟩ := h
    exact ⟨[], le_rfl, by simp, nofun⟩
  | succ depth ih =>
    obtain ⟨turn, xs, below, rfl, -, hfollowed, hall⟩ := h
    cases hall with
    | nil =>
      have hnone : offers s p turn a = [] := by
        rw [List.length_nil] at hfollowed
        exact List.eq_nil_of_length_eq_zero (by omega)
      exact ⟨[], Nat.zero_le _, by simp, fun _ => ⟨_, rfl, hnone⟩⟩
    | @cons x sub xs below hx hrest =>
      obtain ⟨b, hb, hsub⟩ := hx
      obtain rfl : xs = [] := by
        rw [List.length_cons] at hfollowed
        exact List.eq_nil_of_length_eq_zero (by omega)
      cases hrest
      obtain ⟨ys, hlength, hpaths, hends⟩ := ih hsub
      have hne : sub ≠ [] := by
        rintro rfl
        cases ys <;> simp at hpaths
      refine ⟨x :: ys, Nat.succ_le_succ hlength, ?_, ?_⟩
      · simp [hpaths]
      · intro hlt
        rw [List.flatten_singleton, List.getLast?_cons_of_ne_nil hne]
        exact hends (Nat.lt_of_succ_lt_succ hlt)

/-! ## Expansions -/

/-- An expansion that succeeds is a tour to the depth that was asked for. -/
theorem tour_of_expand {steps : Int} {suffix : List String} {r' : Run α}
    (h : expand s p a steps r = .ok suffix r') :
    ∃ stops, tour s p steps.toNat [] a r = .ok stops r' := by
  have hends : Ends (expand s p a steps) r
      (fun _ r' => ∃ stops, tour s p steps.toNat [] a r = .ok stops r') fun _ _ => True := by
    unfold expand
    split
    · trivial
    split
    · trivial
    rw [explore_eq_tour s p _ [], bind_assoc]
    refine Ends.bind (P := fun stops r' => tour s p steps.toNat [] a r = .ok stops r') ?_
      fun stops _ htour => ⟨stops, htour⟩
    unfold Ends
    cases tour s p steps.toNat [] a r with
    | ok stops r₁ => rfl
    | error e r₁ => trivial
  exact hends.ok h

/-- **The scores that an expansion asks for.**  Without a deadline, whatever the graph and its
    sampler are, they are those of the stops of its tour: at most the nodes of a full tree of
    the width, and as many exactly if every stop above the depth offers enough actions.  With
    width one, the stops lie on one sequence of actions, which ends early only where nothing
    is offered. -/
theorem expand_visits {steps : Int} {suffix : List String} {r' : Run α} (hp : p.deadline = none)
    (h : expand s p a steps r = .ok suffix r') :
    ∃ stops, tour s p steps.toNat [] a r = .ok stops r' ∧ Asked r r' stops ∧
      (∀ v ∈ stops, v.path.length ≤ steps.toNat ∧ Replays a v.path v.state ∧
        ∃ turn, v.offered = offers s p turn v.state) ∧
      stops.length ≤ ∑ i ∈ Finset.range (steps.toNat + 1), p.width ^ i ∧
      (stops.length = ∑ i ∈ Finset.range (steps.toNat + 1), p.width ^ i ↔
        ∀ v ∈ stops, v.path.length < steps.toNat → p.width ≤ v.offered.length) ∧
      (p.width = 1 → ∃ xs : List String, xs.length ≤ steps.toNat ∧
        stops.map (·.path) = xs.inits ∧
          (xs.length < steps.toNat → ∃ v ∈ stops.getLast?, v.offered = [])) := by
  obtain ⟨stops, htour⟩ := tour_of_expand h
  obtain ⟨htoured, hasked⟩ := (tour_ends hp steps.toNat [] a r).ok htour
  obtain ⟨hle, heq⟩ := htoured.length_le
  refine ⟨stops, htour, hasked, fun v hv => ?_, hle, by simpa using heq, fun hwidth => ?_⟩
  · obtain ⟨⟨xs, hpath, hlength, hreplays⟩, hoffered⟩ := htoured.replays v hv
    rw [List.nil_append] at hpath
    rw [hpath]
    exact ⟨hlength, hreplays, hoffered⟩
  · simpa using htoured.single hwidth

/-- Two steps of the up/down world, in both ways each: one score, two, and four. -/
theorem expand_visits_upDown :
    ∃ suffix r' stops, expand ⟨UpDownEvaluator.mk, ⟨id, 0⟩⟩ ⟨2, .loopNest, false, 0, none⟩
        UpDown.start (2 : Nat) ⟨.empty 0, .empty⟩ = .ok suffix r' ∧
      Asked ⟨.empty 0, .empty⟩ r' stops ∧ stops.length = 7 := by
  obtain ⟨suffix, r', h⟩ : ∃ suffix r', expand ⟨UpDownEvaluator.mk, ⟨id, 0⟩⟩
      ⟨2, .loopNest, false, 0, none⟩ UpDown.start (2 : Nat) ⟨.empty 0, .empty⟩ = .ok suffix r' :=
    UpDown.expand_ok le_rfl
  obtain ⟨stops, -, hasked, hstop, -, hfull, -⟩ := expand_visits rfl h
  refine ⟨suffix, r', stops, h, hasked, hfull.2 fun v hv _ => ?_⟩
  obtain ⟨-, -, turn, hoffered⟩ := hstop v hv
  rw [hoffered]
  exact le_rfl

end SearchM

end ScheduleSearch

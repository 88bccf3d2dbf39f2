/-
  The times at which depths are reached.

  A graph keeps the latest time of each depth, and its curve is the running maximum of these
  times, in which a depth without a time has that of the depths before it.

  * `Latest calls P x`: `x` is the latest of the times that were recorded for the depths `P`;
    `Reached` is zero instead, if there is none;
  * `Timed.recordDepthTime`: each call keeps the time of its depth the latest one;
  * `reached_curveFrom`: so each entry of the curve is the latest time up to its depth;
  * **`curveAfter_reached`**: after any calls the curve ends at the greatest depth, its
    entries are those maxima, they do not fall, and the order of the calls does not matter.
-/
import ScheduleSearch.Proofs.Recording

namespace ScheduleSearch

/-! ## The greater of two floats -/

section
variable {a b : Float}

theorem greater_of_le (h : a ≤ b) : greater a b = b := by
  obtain ⟨ha, hb⟩ := FloatOrder.not_isNaN_of_le h
  unfold greater
  rw [if_neg]
  rintro (hnan | hlt)
  · rw [hb] at hnan
    cases hnan
  · exact (FloatOrder.not_lt_iff hb ha).2 h hlt

theorem le_greater (ha : a.isNaN = false) (hb : b.isNaN = false) :
    a ≤ greater a b ∧ b ≤ greater a b := by
  unfold greater
  rw [hb]
  split
  · next h =>
    have hlt : b < a := h.resolve_left Bool.false_ne_true
    exact ⟨FloatOrder.refl ha, FloatOrder.le_of_lt hb ha hlt⟩
  · next h => exact ⟨(FloatOrder.not_lt_iff hb ha).1 fun hlt => h (.inr hlt), FloatOrder.refl hb⟩

end

/-! ## Latest times -/

/-- `x` is the latest of the times that were recorded for the depths `P`. -/
structure Latest (calls : List (Nat × Float)) (P : Nat → Prop) (x : Float) : Prop where
  recorded : ∃ c ∈ calls, P c.1 ∧ c.2 = x
  upper : ∀ c ∈ calls, P c.1 → c.2 ≤ x

/-- `x` is the latest of the times that were recorded for the depths `P`, or zero if there is
    none. -/
def Reached (calls : List (Nat × Float)) (P : Nat → Prop) (x : Float) : Prop :=
  Latest calls P x ∨ x = 0 ∧ ∀ c ∈ calls, ¬P c.1

section
variable {calls calls' : List (Nat × Float)} {P Q : Nat → Prop} {x y : Float}

theorem Latest.self_le (h : Latest calls P x) : x ≤ x := by
  obtain ⟨c, hc, hP, rfl⟩ := h.recorded
  exact h.upper c hc hP

theorem Latest.not_isNaN (h : Latest calls P x) : x.isNaN = false :=
  (FloatOrder.not_isNaN_of_le h.self_le).1

theorem Latest.congr (hP : ∀ c ∈ calls, P c.1 ↔ Q c.1) (h : Latest calls P x) :
    Latest calls Q x where
  recorded := by
    obtain ⟨c, hc, hPc, hx⟩ := h.recorded
    exact ⟨c, hc, (hP c hc).1 hPc, hx⟩
  upper c hc hQ := h.upper c hc ((hP c hc).2 hQ)

theorem Reached.congr (hP : ∀ c ∈ calls, P c.1 ↔ Q c.1) (h : Reached calls P x) :
    Reached calls Q x := by
  rcases h with h | ⟨hx, hnone⟩
  · exact .inl (h.congr hP)
  · exact .inr ⟨hx, fun c hc hQ => hnone c hc ((hP c hc).2 hQ)⟩

/-- The order of the calls does not matter. -/
theorem Latest.perm (hcalls : calls.Perm calls') (h : Latest calls P x) : Latest calls' P x where
  recorded := by
    obtain ⟨c, hc, hP, hx⟩ := h.recorded
    exact ⟨c, hcalls.mem_iff.1 hc, hP, hx⟩
  upper c hc := h.upper c (hcalls.mem_iff.2 hc)

/-- The latest time grows with the depths. -/
theorem Reached.le (hpos : ∀ c ∈ calls, 0 ≤ c.2) (hPQ : ∀ d, P d → Q d)
    (hx : Reached calls P x) (hy : Reached calls Q y) : x ≤ y := by
  rcases hx with hx | ⟨rfl, -⟩
  · obtain ⟨c, hc, hP, rfl⟩ := hx.recorded
    rcases hy with hy | ⟨-, hnone⟩
    · exact hy.upper c hc (hPQ _ hP)
    · exact absurd (hPQ _ hP) (hnone c hc)
  · rcases hy with hy | ⟨rfl, -⟩
    · obtain ⟨c, hc, -, rfl⟩ := hy.recorded
      exact hpos c hc
    · exact FloatOrder.refl (by decide)

/-- The latest time is determined as a number. -/
theorem Reached.beq (hpos : ∀ c ∈ calls, 0 ≤ c.2) (hx : Reached calls P x)
    (hy : Reached calls P y) : x == y := by
  have hxy := hx.le hpos (fun _ => id) hy
  obtain ⟨hxnan, hynan⟩ := FloatOrder.not_isNaN_of_le hxy
  exact FloatOrder.beq_of_le hxnan hynan hxy (hy.le hpos (fun _ => id) hx)

theorem Reached.ne_negZero (hne : ∀ c ∈ calls, c.2 ≠ -0) (h : Reached calls P x) : x ≠ -0 := by
  rcases h with h | ⟨rfl, -⟩
  · obtain ⟨c, hc, -, rfl⟩ := h.recorded
    exact hne c hc
  · decide

/-- The first call at the depths `P`. -/
theorem latest_first (hnone : ∀ c ∈ calls, ¬P c.1) {depth : Nat} {time : Float} (hP : P depth)
    (htime : time.isNaN = false) : Latest (calls ++ [(depth, time)]) P time where
  recorded := ⟨(depth, time), by simp, hP, rfl⟩
  upper c hc hPc := by
    rcases List.mem_append.1 hc with hc | hc
    · exact absurd hPc (hnone c hc)
    · obtain rfl := List.mem_singleton.1 hc
      exact FloatOrder.refl htime

/-- A further call at the depths `P`. -/
theorem Latest.next (h : Latest calls P x) {depth : Nat} {time : Float} (hP : P depth)
    (htime : time.isNaN = false) :
    Latest (calls ++ [(depth, time)]) P (if x < time then time else x) := by
  obtain ⟨b, hb, hPb, hbx⟩ := h.recorded
  split
  · next hlt =>
    refine ⟨⟨(depth, time), by simp, hP, rfl⟩, fun c hc hPc => ?_⟩
    rcases List.mem_append.1 hc with hc | hc
    · exact FloatOrder.trans (h.upper c hc hPc) (FloatOrder.le_of_lt h.not_isNaN htime hlt)
    · obtain rfl := List.mem_singleton.1 hc
      exact FloatOrder.refl htime
  · next hle =>
    refine ⟨⟨b, List.mem_append_left _ hb, hPb, hbx⟩, fun c hc hPc => ?_⟩
    rcases List.mem_append.1 hc with hc | hc
    · exact h.upper c hc hPc
    · obtain rfl := List.mem_singleton.1 hc
      exact (FloatOrder.not_lt_iff h.not_isNaN htime).1 hle

/-- A call at another depth. -/
theorem Latest.beside (h : Latest calls P x) {depth : Nat} (time : Float) (hP : ¬P depth) :
    Latest (calls ++ [(depth, time)]) P x := by
  obtain ⟨b, hb, hPb, hbx⟩ := h.recorded
  refine ⟨⟨b, List.mem_append_left _ hb, hPb, hbx⟩, fun c hc hPc => ?_⟩
  rcases List.mem_append.1 hc with hc | hc
  · exact h.upper c hc hPc
  · obtain rfl := List.mem_singleton.1 hc
    exact absurd hPc hP

/-- The greater of the latest times of some depths and of some others. -/
theorem Reached.or (hpos : ∀ c ∈ calls, 0 ≤ c.2) (hx : Reached calls P x)
    (hy : Latest calls Q y) : Latest calls (fun d => P d ∨ Q d) (greater x y) := by
  obtain ⟨c, hc, hQ, hcy⟩ := hy.recorded
  rcases hx with hx | ⟨rfl, hnone⟩
  · obtain ⟨hxle, hyle⟩ := le_greater hx.not_isNaN hy.not_isNaN
    constructor
    · rcases List.mem_pair.1 (greater_mem x y) with h | h <;> rw [h]
      · obtain ⟨b, hb, hP, hbx⟩ := hx.recorded
        exact ⟨b, hb, .inl hP, hbx⟩
      · exact ⟨c, hc, .inr hQ, hcy⟩
    · rintro b hb (hP | hQ)
      · exact FloatOrder.trans (hx.upper b hb hP) hxle
      · exact FloatOrder.trans (hy.upper b hb hQ) hyle
  · -- the zero gives way to the first time, which is not negative
    rw [greater_of_le (hcy ▸ hpos c hc)]
    refine ⟨⟨c, hc, .inr hQ, hcy⟩, ?_⟩
    rintro b hb (hP | hQ)
    · exact absurd hP (hnone b hb)
    · exact hy.upper b hb hQ

end

namespace Graph

variable {g : Graph} {calls : List (Nat × Float)} {depth d : Nat} {time x : Float}

/-! ## Recording -/

/-- The graph after times of depths were recorded, in order. -/
def recordDepthTimes (g : Graph) (calls : List (Nat × Float)) : Graph :=
  calls.foldl (fun g c => g.recordDepthTime c.1 c.2) g

/-- The curve after these calls on a graph without times. -/
def curveAfter (seed : UInt64) (calls : List (Nat × Float)) : List Float :=
  ((empty seed).recordDepthTimes calls).depthTimeCurve

/-- The graph keeps the latest time of each depth, and no others. -/
structure Timed (g : Graph) (calls : List (Nat × Float)) : Prop where
  kept {d : Nat} {x : Float} : g.depthTimes[d]? = some x → Latest calls (· = d) x
  absent {d : Nat} : g.depthTimes[d]? = none → ∀ c ∈ calls, c.1 ≠ d

theorem Timed.perm {calls' : List (Nat × Float)} (hcalls : calls.Perm calls')
    (h : g.Timed calls) : g.Timed calls' where
  kept hx := (h.kept hx).perm hcalls
  absent hnone c hc := h.absent hnone c (hcalls.mem_iff.2 hc)

/-- The time of a depth after a call. -/
theorem depthTimes_recordDepthTime (g : Graph) (depth : Nat) (time : Float) (d : Nat) :
    (g.recordDepthTime depth time).depthTimes[d]? =
      if d = depth then some (match g.depthTimes[depth]? with
        | none => time
        | some old => if old < time then time else old)
      else g.depthTimes[d]? := by
  have hinsert : (g.depthTimes.insert depth time)[d]? =
      if d = depth then some time else g.depthTimes[d]? := by
    rw [Std.TreeMap.getElem?_insert]
    simp only [Std.LawfulEqOrd.compare_eq_iff_eq, eq_comm (a := depth)]
  unfold recordDepthTime
  cases hold : g.depthTimes[depth]? with
  | none => exact hinsert
  | some old =>
    dsimp only
    split
    · exact hinsert
    · split
      · next hd => rw [hd, hold]
      · rfl

theorem Timed.recordDepthTime (h : g.Timed calls) (htime : time.isNaN = false) :
    (g.recordDepthTime depth time).Timed (calls ++ [(depth, time)]) where
  kept {d x} hx := by
    rw [depthTimes_recordDepthTime] at hx
    split at hx
    · next hd =>
      subst hd
      obtain rfl := Option.some.inj hx
      cases hold : g.depthTimes[d]? with
      | none => exact latest_first (h.absent hold) rfl htime
      | some old => exact (h.kept hold).next rfl htime
    · next hd => exact (h.kept hx).beside time (Ne.symm hd)
  absent {d} hnone := by
    rw [depthTimes_recordDepthTime] at hnone
    split at hnone
    · cases hnone
    · next hd =>
      intro c hc
      rcases List.mem_append.1 hc with hc | hc
      · exact h.absent hnone c hc
      · obtain rfl := List.mem_singleton.1 hc
        exact Ne.symm hd

theorem timed_recordDepthTimes (seed : UInt64) (calls : List (Nat × Float))
    (h : ∀ c ∈ calls, c.2.isNaN = false) :
    ((empty seed).recordDepthTimes calls).Timed calls := by
  induction calls using List.reverseRecOn with
  | nil =>
    refine ⟨fun h => ?_, fun _ c hc => ?_⟩
    · cases h
    · cases hc
  | append_singleton calls c ih =>
    rw [recordDepthTimes, List.foldl_concat]
    exact (ih fun b hb => h b (List.mem_append_left _ hb)).recordDepthTime (h c (by simp))

/-! ## The curve -/

/-- One depth further. -/
theorem Timed.reached_succ (h : g.Timed calls) (hpos : ∀ c ∈ calls, 0 ≤ c.2) {running : Float}
    (hr : Reached calls (· < depth) running) :
    Reached calls (· ≤ depth) (match g.depthTimes[depth]? with
      | none => running
      | some time => greater running time) := by
  cases htime : g.depthTimes[depth]? with
  | none =>
    refine hr.congr fun c hc => ?_
    have := h.absent htime c hc
    omega
  | some time =>
    refine .inl ((hr.or hpos (h.kept htime)).congr fun c _ => ?_)
    omega

/-- Each entry of the curve is the latest time up to its depth. -/
theorem Timed.reached_curveFrom (h : g.Timed calls) (hpos : ∀ c ∈ calls, 0 ≤ c.2) (n : Nat)
    {running : Float} (hr : Reached calls (· < depth) running) {i : Nat}
    (hx : (g.curveFrom n depth running)[i]? = some x) : Reached calls (· ≤ depth + i) x := by
  induction n generalizing depth running i with
  | zero => simp [curveFrom] at hx
  | succ n ih =>
    have hnext := h.reached_succ hpos hr
    rw [curveFrom] at hx
    cases i with
    | zero =>
      obtain rfl := Option.some.inj hx
      exact hnext
    | succ i =>
      have hlt := hnext.congr (Q := (· < depth + 1)) fun c _ =>
        Nat.lt_succ_iff.symm
      refine (ih hlt hx).congr fun c _ => ?_
      omega

theorem Timed.reached_depthTimeCurve (h : g.Timed calls) (hpos : ∀ c ∈ calls, 0 ≤ c.2)
    (hx : g.depthTimeCurve[d]? = some x) : Reached calls (· ≤ d) x := by
  unfold depthTimeCurve at hx
  split at hx
  · cases hx
  · have hzero : Reached calls (· < 0) 0 := .inr ⟨rfl, fun c _ => Nat.not_lt_zero c.1⟩
    simpa using h.reached_curveFrom hpos _ hzero hx

/-- The curve ends at the greatest depth. -/
theorem Timed.lt_length_iff (h : g.Timed calls) :
    d < g.depthTimeCurve.length ↔ ∃ c ∈ calls, d ≤ c.1 := by
  have hmem : ∀ k, k ∈ g.depthTimes ↔ ∃ c ∈ calls, c.1 = k := by
    intro k
    rw [Std.TreeMap.mem_iff_isSome_getElem?]
    cases hk : g.depthTimes[k]? with
    | none => exact iff_of_false Bool.false_ne_true fun ⟨c, hc, hck⟩ => h.absent hk c hc hck
    | some x =>
      obtain ⟨c, hc, hck, -⟩ := (h.kept hk).recorded
      exact iff_of_true rfl ⟨c, hc, hck⟩
  rw [lt_length_depthTimeCurve_iff]
  constructor
  · rintro ⟨k, hk, hd⟩
    obtain ⟨c, hc, rfl⟩ := (hmem k).1 hk
    exact ⟨c, hc, hd⟩
  · rintro ⟨c, hc, hd⟩
    exact ⟨c.1, (hmem c.1).2 ⟨c, hc, rfl⟩, hd⟩

/-- Curves of the same calls have equal numbers, and the same floats if no time is the
    negative zero. -/
theorem Timed.depthTimeCurve_eq {g' : Graph} (h : g.Timed calls) (h' : g'.Timed calls)
    (hpos : ∀ c ∈ calls, 0 ≤ c.2) :
    g'.depthTimeCurve == g.depthTimeCurve ∧
      ((∀ c ∈ calls, c.2 ≠ -0) → g'.depthTimeCurve = g.depthTimeCurve) := by
  have hlength : g'.depthTimeCurve.length = g.depthTimeCurve.length :=
    eq_of_forall_lt_iff fun d => h'.lt_length_iff.trans h.lt_length_iff.symm
  have hentry : ∀ {g : Graph}, g.Timed calls → ∀ (d : Nat) (hd : d < g.depthTimeCurve.length),
      Reached calls (· ≤ d) g.depthTimeCurve[d] := fun h d hd =>
    h.reached_depthTimeCurve hpos (List.getElem?_eq_getElem hd)
  constructor
  · rw [List.beq_eq_decide, dif_pos hlength, decide_eq_true_eq]
    intro d hd
    exact (hentry h' d hd).beq hpos (hentry h d (hlength ▸ hd))
  · intro hne
    refine List.ext_getElem hlength fun d hd' hd => ?_
    have hx' := hentry h' d hd'
    have hx := hentry h d hd
    rcases FloatOrder.eq_or_zeros_of_beq (hx'.beq hpos hx) with heq | ⟨hzero', hzero⟩
    · exact heq
    · rw [hzero'.resolve_right (hx'.ne_negZero hne), hzero.resolve_right (hx.ne_negZero hne)]

/-- **The curve** of any times that are not negative ends at the greatest depth.  Its entry for
    a depth is the latest time up to that depth, or zero if there is none, so the entries do
    not fall, and the order of the calls does not matter: it cannot change the numbers, nor
    the floats unless a time is the negative zero. -/
theorem curveAfter_reached (seed : UInt64) {calls : List (Nat × Float)} (hne : calls ≠ [])
    (hpos : ∀ c ∈ calls, 0 ≤ c.2) :
    (∃ k, IsGreatest {d | ∃ c ∈ calls, c.1 = d} k ∧ (curveAfter seed calls).length = 1 + k) ∧
      (∀ d x, (curveAfter seed calls)[d]? = some x → Reached calls (· ≤ d) x) ∧
      (curveAfter seed calls).Pairwise (· ≤ ·) ∧
      ∀ calls' : List (Nat × Float), calls'.Perm calls →
        curveAfter seed calls' == curveAfter seed calls ∧
          ((∀ c ∈ calls, c.2 ≠ -0) → curveAfter seed calls' = curveAfter seed calls) := by
  have hnan : ∀ c ∈ calls, c.2.isNaN = false := fun c hc =>
    (FloatOrder.not_isNaN_of_le (hpos c hc)).2
  have h := timed_recordDepthTimes seed calls hnan
  have hend : ∀ {d}, d < (curveAfter seed calls).length ↔ ∃ c ∈ calls, d ≤ c.1 :=
    h.lt_length_iff
  have hentry : ∀ d x, (curveAfter seed calls)[d]? = some x → Reached calls (· ≤ d) x :=
    fun d x hx => h.reached_depthTimeCurve hpos hx
  refine ⟨?_, hentry, ?_, ?_⟩
  · obtain ⟨b, hb⟩ := List.exists_mem_of_ne_nil calls hne
    have hlength : 0 < (curveAfter seed calls).length := hend.2 ⟨b, hb, Nat.zero_le _⟩
    obtain ⟨c, hc, hlast⟩ := hend.1 (Nat.sub_one_lt (Nat.ne_of_gt hlength))
    have hupper : ∀ b ∈ calls, b.1 < (curveAfter seed calls).length := fun b hb =>
      hend.2 ⟨b, hb, le_rfl⟩
    have hclt := hupper c hc
    refine ⟨c.1, ⟨⟨c, hc, rfl⟩, ?_⟩, by omega⟩
    rintro d ⟨b, hb, rfl⟩
    have hblt := hupper b hb
    omega
  · rw [List.pairwise_iff_getElem]
    intro i j hi hj hij
    exact (hentry i _ (List.getElem?_eq_getElem hi)).le hpos (fun _ hd => hd.trans hij.le)
      (hentry j _ (List.getElem?_eq_getElem hj))
  · intro calls' hcalls
    have h' := timed_recordDepthTimes seed calls' fun c hc => hnan c (hcalls.mem_iff.1 hc)
    exact h.depthTimeCurve_eq (h'.perm hcalls) hpos

/-- Four depths are reached, in any order of the calls, though one of them has no call. -/
theorem curveAfter_reached_gap :
    let calls : List (Nat × Float) := [(3, 1), (1, 2), (0, 1), (3, 3)]
    (calls ≠ [] ∧ ∀ c ∈ calls, 0 ≤ c.2) ∧
      (curveAfter 0 calls).length = 4 ∧
      (∀ x, (curveAfter 0 calls)[2]? = some x → Reached calls (· ≤ 2) x) ∧
      (curveAfter 0 calls).Pairwise (· ≤ ·) ∧
      ((∀ c ∈ calls, c.2 ≠ -0) ∧ curveAfter 0 calls.reverse = curveAfter 0 calls) := by
  intro calls
  have hne : calls ≠ [] := by decide
  have hpos : ∀ c ∈ calls, 0 ≤ c.2 := by decide
  have hnegZero : ∀ c ∈ calls, c.2 ≠ -0 := by decide
  obtain ⟨⟨k, hk, hlength⟩, hentry, hpairwise, hperm⟩ := curveAfter_reached 0 hne hpos
  have hupper : ∀ c ∈ calls, c.1 ≤ 3 := by decide
  have hgreatest : IsGreatest {d | ∃ c ∈ calls, c.1 = d} 3 :=
    ⟨⟨(3, 3), by simp [calls], rfl⟩, fun d ⟨c, hc, hd⟩ => hd ▸ hupper c hc⟩
  rw [hk.unique hgreatest] at hlength
  exact ⟨⟨hne, hpos⟩, hlength, hentry 2, hpairwise, hnegZero,
    (hperm calls.reverse calls.reverse_perm).2 hnegZero⟩

end Graph

end ScheduleSearch

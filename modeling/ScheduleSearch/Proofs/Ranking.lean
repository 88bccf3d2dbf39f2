/-
  Rankings of loop nests.

  A ranking tries each legal action on a copy of the nest, or asks the policy for its logit,
  and sorts by the order of the bits, a NaN last.

  * `orderKey_lt_of_lt`: the order of the bits is that of the numbers, the infinite ones
    included, so the entries are sorted as numbers (`sortBestFirst_bestFirst`);
  * `PolicyModel.Logit` says which logit an action has;
  * **`AnalyticEvaluator.rank_legal`**: a legal nest is ranked under every mode whose model
    there is, whatever the weights are, and each legal action has one entry.
-/
import ScheduleSearch.Proofs.Counts
import ScheduleSearch.Proofs.Spelling
import ScheduleSearch.World.Analytic

namespace ScheduleSearch

open Float.Model (UnpackedFloat Format)
open FloatOrder (key keyOf)

/-! ## The order of the bits -/

section
variable {x y : Float}

/-- A float that is no NaN is finite, or an infinity. -/
theorem finite_or_infinite (hx : x.isNaN = false) : x.isFinite ∨
    key x = keyOf (.infinity (signOf (signBit x))) ∧
      x.toBits.toNat % 2 ^ 63 = 0x7FF0000000000000 := by
  have hunpack : x.toModel.unpack = UnpackedFloat.unpack Format.binary64 x.toBits.toBitVec := rfl
  by_cases hbits : FiniteBits x.toBits
  · left
    show x.toModel.unpack.isFinite = true
    rw [hunpack, ← pack_ofBits hbits, unpack_pack (double_ofBits hbits)]
    unfold unpacked
    split <;> rfl
  · right
    unfold FiniteBits at hbits
    rw [ne_eq, not_not] at hbits
    have hpack := eq_packComponents x.toBits.toBitVec (e := -1#_)
      (m := BitVec.ofNat 52 (x.toBits.toNat % 2 ^ 52)) rfl hbits.symm
      (by rw [BitVec.toNat_ofNat, UInt64.toNat_toBitVec]; omega)
    rw [← hpack, unpack_packComponents, if_pos rfl] at hunpack
    split at hunpack
    · next hmantissa =>
      rw [← BitVec.toNat_inj, BitVec.toNat_ofNat, BitVec.toNat_ofNat] at hmantissa
      exact ⟨congrArg keyOf hunpack, by omega⟩
    · have hnan : x.toModel.unpack.isNaN = false := hx
      rw [hunpack] at hnan
      cases hnan

/-- The place of a number, by its sign and its magnitude. -/
theorem orderKey_eq (x : Float) : orderKey x =
    if signBit x then -1 - ((x.toBits.toNat % 2 ^ 63 : Nat) : Int)
    else (x.toBits.toNat % 2 ^ 63 : Nat) := by
  have hlt := x.toBits.toNat_lt
  unfold orderKey
  dsimp only
  by_cases hneg : x.toBits.toNat < 0x8000000000000000
  · have hsign : signBit x = false := by simpa [signBit] using hneg
    rw [if_pos hneg, hsign, if_neg Bool.false_ne_true]
    omega
  · have hsign : signBit x = true := by simpa [signBit] using hneg
    rw [if_neg hneg, if_pos hsign]
    omega

/-- Finite numbers stand between the infinities. -/
theorem orderKey_finite (hx : x.isFinite) :
    -1 - 0x7FF0000000000000 < orderKey x ∧ orderKey x < 0x7FF0000000000000 := by
  have hbits := finiteBits hx
  unfold FiniteBits at hbits
  rw [orderKey_eq]
  split <;> omega

/-- Nothing is below the negative infinity, or above the positive one. -/
theorem keyOf_infinity (u : UnpackedFloat) :
    ¬ keyOf u < keyOf (.infinity .negative) ∧ ¬ keyOf (.infinity .positive) < keyOf u := by
  rcases u with (_ | _) | _ | _ | ⟨_ | _, _, _, _⟩ <;> simp [keyOf, Prod.Lex.lt_iff]

/-- The order of the bits is that of the numbers, the infinite ones included. -/
theorem orderKey_lt_of_lt (hx : x.isNaN = false) (hy : y.isNaN = false) (h : x < y) :
    orderKey x < orderKey y := by
  have hkey := (FloatOrder.lt_iff hx hy).1 h
  -- an infinity below a number is the negative one, and one above a number is the positive one
  have hlow : key x = keyOf (.infinity (signOf (signBit x))) → signBit x = true := by
    intro hxkey
    rw [hxkey] at hkey
    by_contra hsign
    rw [Bool.not_eq_true] at hsign
    exact (keyOf_infinity _).2 (hsign ▸ hkey)
  have hhigh : key y = keyOf (.infinity (signOf (signBit y))) → signBit y = false := by
    intro hykey
    rw [hykey] at hkey
    by_contra hsign
    rw [Bool.not_eq_false] at hsign
    exact (keyOf_infinity _).1 (hsign ▸ hkey)
  rcases finite_or_infinite hx with hxf | ⟨hxkey, hxbits⟩ <;>
    rcases finite_or_infinite hy with hyf | ⟨hykey, hybits⟩
  · exact orderKey_lt hxf hyf h
  · rw [orderKey_eq y, hybits, hhigh hykey]
    exact (orderKey_finite hxf).2
  · rw [orderKey_eq x, hxbits, hlow hxkey]
    exact (orderKey_finite hyf).1
  · rw [orderKey_eq x, hxbits, hlow hxkey, orderKey_eq y, hybits, hhigh hykey]
    decide

/-! ## Sorting -/

/-- The ranked actions stand in the order of their scores, a NaN after all numbers. -/
def BestFirst (ranked : List RankedAction) : Prop :=
  ranked.Pairwise fun x y => y.score.isNaN ∨ y.score ≤ x.score

theorem notAfter_iff {x y : RankedAction} :
    x.notAfter y ↔ y.score.isNaN ∨ x.score.isNaN = false ∧ orderKey y.score ≤ orderKey x.score := by
  unfold RankedAction.notAfter
  cases y.score.isNaN <;> cases x.score.isNaN <;> simp

theorem notAfter_trans (x y z : RankedAction) (hxy : x.notAfter y) (hyz : y.notAfter z) :
    x.notAfter z := by
  rw [notAfter_iff] at hxy hyz ⊢
  rcases hyz with hz | ⟨hy, hyz⟩
  · exact .inl hz
  · rcases hxy with hynan | ⟨hx, hxy⟩
    · rw [hynan] at hy
      cases hy
    · exact .inr ⟨hx, hyz.trans hxy⟩

theorem notAfter_total (x y : RankedAction) : (x.notAfter y || y.notAfter x) = true := by
  rw [Bool.or_eq_true, notAfter_iff, notAfter_iff]
  cases x.score.isNaN <;> cases y.score.isNaN <;> simp [le_total]

theorem sortBestFirst_perm (ranked : List RankedAction) : (sortBestFirst ranked).Perm ranked :=
  List.mergeSort_perm ranked _

theorem sortBestFirst_bestFirst (ranked : List RankedAction) :
    BestFirst (sortBestFirst ranked) := by
  refine (List.pairwise_mergeSort notAfter_trans notAfter_total ranked).imp ?_
  intro x y hxy
  rcases notAfter_iff.1 hxy with hy | ⟨hx, hle⟩
  · exact .inl hy
  · by_cases hy : y.score.isNaN
    · exact .inl hy
    · refine .inr ((FloatOrder.not_lt_iff hx (by simpa using hy)).1 fun hlt => ?_)
      exact absurd hle (orderKey_lt_of_lt hx (by simpa using hy) hlt).not_ge

end

/-! ## Legal actions -/

open Agent NestAction

/-- The names of the actions that are legal in a nest are distinct. -/
theorem LoopNest.nodup_available (a : LoopNest) : (Agent.available a).Nodup := by
  have hsub : a.nest.available.Sublist
      ([up, swapUp] ++ [down, swapDown] ++ splitFactors.map split ++ [merge]) := by
    have hguard : ∀ {c : Prop} [Decidable c] {actions : List NestAction},
        (if c then actions else []).Sublist actions := by
      intro c _ actions
      split <;> simp
    exact ((hguard.append hguard).append (List.filter_sublist.map _)).append hguard
  show (a.nest.available.map NestAction.name).Nodup
  refine List.Nodup.map_on (fun x hx y hy h => ?_) (hsub.nodup (by decide))
  have hx := ofName?_name (Nest.mem_available_iff.1 hx).1
  have hy := ofName?_name (Nest.mem_available_iff.1 hy).1
  rw [h, hy] at hx
  exact (Option.some.inj hx).symm

/-- A listed action is accepted. -/
theorem LoopNest.exists_moves {a : LoopNest} {action : String} (h : action ∈ Agent.available a) :
    ∃ b, Moves a action b := by
  obtain ⟨x, hx, rfl⟩ := List.mem_map.1 h
  obtain ⟨hall, nest, hact⟩ := Nest.mem_available_iff.1 hx
  exact ⟨_, (LoopNest.moves_iff_act (ofName?_name hall)).2 ⟨nest, hact, rfl⟩⟩

/-! ## Logits -/

/-- The stem of a name: all of it, or what stands before the first underscore. -/
inductive Stem : String → String → Prop
  | whole {name : String} : '_' ∉ name.toList → Stem name name
  | cut {stem : String} (rest : String) : '_' ∉ stem.toList → Stem (stem ++ "_" ++ rest) stem

theorem stem_family (name : String) : Stem name (PolicyModel.family name) := by
  have hfree : '_' ∉ (PolicyModel.family name).toList := by
    intro h
    have := List.mem_takeWhile_imp (by simpa [PolicyModel.family] using h)
    simp at this
  have hsplit := List.takeWhile_append_dropWhile (p := (· ≠ '_')) (l := name.toList)
  cases hrest : name.toList.dropWhile (· ≠ '_') with
  | nil =>
    rw [hrest, List.append_nil] at hsplit
    have hname : PolicyModel.family name = name := by
      rw [← String.toList_inj, PolicyModel.family, String.toList_ofList]
      exact hsplit
    rw [hname] at hfree ⊢
    exact .whole hfree
  | cons c rest =>
    have hc : c = '_' := by
      have := List.head?_dropWhile_not (· ≠ '_') name.toList
      rw [hrest] at this
      simpa using this
    have hname : name = PolicyModel.family name ++ "_" ++ String.ofList rest := by
      rw [← String.toList_inj, ← hsplit, hrest, hc]
      simp [PolicyModel.family]
    have hcut := Stem.cut (String.ofList rest) hfree
    rwa [← hname] at hcut

/-- The logit of an action: that stored for its name, or else for the stem of its name, or else
    the default. -/
inductive PolicyModel.Logit (m : PolicyModel) (action : String) : Float → Prop
  | own {x : Float} : m.logits[action]? = some x → Logit m action x
  | stem {stem : String} {x : Float} : m.logits[action]? = none → Stem action stem →
      m.logits[stem]? = some x → Logit m action x
  | default {stem : String} : m.logits[action]? = none → Stem action stem →
      m.logits[stem]? = none → Logit m action m.default

theorem PolicyModel.logit_spec (m : PolicyModel) (action : String) :
    m.Logit action (m.logit action) := by
  unfold PolicyModel.logit
  cases hown : m.logits[action]? with
  | some x => exact .own hown
  | none =>
    cases hstem : m.logits[family action]? with
    | some x => exact .stem hown (stem_family action) hstem
    | none => exact .default hown (stem_family action) hstem

/-! ## Rankings -/

section
variable {ε β γ : Type}

/-- Where `f` answers each item with an entry of it, a `mapM` gives one entry to each. -/
theorem exists_mapM {f : β → Except ε γ} {item : γ → β} {P : γ → Prop} {xs : List β}
    (h : ∀ x ∈ xs, ∃ y, f x = .ok y ∧ item y = x ∧ P y) :
    ∃ ys, xs.mapM f = .ok ys ∧ ys.map item = xs ∧ ∀ y ∈ ys, P y := by
  induction xs with
  | nil => exact ⟨[], rfl, rfl, nofun⟩
  | cons x xs ih =>
    obtain ⟨y, hy, hitem, hP⟩ := h x List.mem_cons_self
    obtain ⟨ys, hys, hitems, hPs⟩ := ih fun z hz => h z (List.mem_cons_of_mem _ hz)
    refine ⟨y :: ys, ?_, by simp [hitem, hitems], List.forall_mem_cons.2 ⟨hP, hPs⟩⟩
    rw [List.mapM_cons, hy, hys]
    rfl

end

namespace AnalyticEvaluator

/-- The model that a mode asks for is there; the throughput of a nest needs none. -/
def Ready (e : AnalyticEvaluator) : EvalMode → Prop
  | .loopNest => True
  | .cost => e.hasModel .cost
  | .policy => e.hasModel .policy

/-- What an entry of a ranking says: the score of the nest that its action makes, or under a
    policy the logit of its action. -/
inductive Entry (e : AnalyticEvaluator) (turn : Nat) (a : LoopNest) : EvalMode → RankedAction → Prop
  | made {mode : EvalMode} {x : RankedAction} {b : LoopNest} : mode ≠ .policy →
      Moves a x.action b → Evaluator.score e turn b mode = .ok x.score → Entry e turn a mode x
  | logit {x : RankedAction} {m : PolicyModel} : e.policyModel = .ok m →
      m.Logit x.action x.score → Entry e turn a .policy x

/-- `ranked` ranks the legal actions of `a`. -/
structure Ranks (e : AnalyticEvaluator) (turn : Nat) (a : LoopNest) (mode : EvalMode)
    (ranked : List RankedAction) : Prop where
  complete : (ranked.map (·.action)).Perm (Agent.available a)
  nodup : (ranked.map (·.action)).Nodup
  entry : ∀ x ∈ ranked, Entry e turn a mode x
  bestFirst : BestFirst ranked

variable {e : AnalyticEvaluator} {turn : Nat} {a : LoopNest} {mode : EvalMode}
  {ranked : List RankedAction}

/-- Sorting the entries of the legal actions ranks them. -/
theorem ranks_sortBestFirst (hactions : ranked.map (·.action) = Agent.available a)
    (hentry : ∀ x ∈ ranked, Entry e turn a mode x) :
    Ranks e turn a mode (sortBestFirst ranked) := by
  have hperm := sortBestFirst_perm ranked
  have hcomplete : ((sortBestFirst ranked).map (·.action)).Perm (Agent.available a) :=
    hactions ▸ hperm.map _
  exact {
    complete := hcomplete
    nodup := hcomplete.nodup_iff.2 a.nodup_available
    entry := fun x hx => hentry x (hperm.mem_iff.1 hx)
    bestFirst := sortBestFirst_bestFirst ranked }

theorem exists_policyModel (h : e.Ready .policy) : ∃ m, e.policyModel = .ok m := by
  obtain ⟨m, hm⟩ := Option.isSome_iff_exists.1 h
  exact ⟨m, by unfold policyModel; rw [hm]⟩

theorem exists_costModel (h : e.Ready .cost) : ∃ m, e.costModel = .ok m := by
  obtain ⟨m, hm⟩ := Option.isSome_iff_exists.1 h
  exact ⟨m, by unfold costModel; rw [hm]⟩

theorem exists_score (h : e.Ready mode) (b : LoopNest) : ∃ v, e.score b mode = .ok v := by
  cases mode with
  | loopNest => exact ⟨_, rfl⟩
  | cost =>
    obtain ⟨m, hm⟩ := exists_costModel h
    exact ⟨m.score b.nest, by unfold score; rw [hm]; rfl⟩
  | policy =>
    obtain ⟨m, hm⟩ := exists_policyModel h
    exact ⟨m.score b.nest, by unfold score; rw [hm]; rfl⟩

/-- Each legal action is tried, and the nest it makes is scored. -/
theorem exists_successors (h : e.Ready mode) (hmode : mode ≠ .policy) (a : LoopNest) (turn : Nat) :
    ∃ ranked, e.successors a mode = .ok ranked ∧ ranked.map (·.action) = Agent.available a ∧
      ∀ x ∈ ranked, Entry e turn a mode x := by
  refine exists_mapM fun action haction => ?_
  obtain ⟨b, hb⟩ := LoopNest.exists_moves haction
  obtain ⟨v, hv⟩ := exists_score h b
  refine ⟨⟨action, v⟩, ?_, rfl, .made hmode hb hv⟩
  rw [show Agent.changed a (Agent.apply action) = .ok b from hb]
  show (e.score b mode >>= fun v => pure (⟨action, v⟩ : RankedAction)) = _
  rw [hv]
  rfl

/-- **A ranking** of a legal nest succeeds under every mode whose model there is: each legal
    action has one entry, with the score of the nest it makes or with its logit, and no entry
    is lower than a number after it. -/
theorem rank_legal (e : AnalyticEvaluator) (turn : Nat) (a : LoopNest) (mode : EvalMode)
    (h : e.Ready mode) :
    ∃ ranked, Evaluator.rank e turn a mode = .ok ranked ∧ Ranks e turn a mode ranked := by
  show ∃ ranked, e.rank a mode = .ok ranked ∧ _
  have hsuccessors : mode ≠ .policy → ∃ ranked,
      (do return sortBestFirst (← e.successors a mode)) = Except.ok (ε := EvalError) ranked ∧
        Ranks e turn a mode ranked := by
    intro hmode
    obtain ⟨ranked, hranked, hactions, hentry⟩ := exists_successors h hmode a turn
    exact ⟨_, by rw [hranked]; rfl, ranks_sortBestFirst hactions hentry⟩
  cases mode with
  | loopNest => exact hsuccessors nofun
  | cost => exact hsuccessors nofun
  | policy =>
    obtain ⟨m, hm⟩ := exists_policyModel h
    have hactions : ((Agent.available a).map fun action =>
        (⟨action, m.logit action⟩ : RankedAction)).map (·.action) = Agent.available a := by
      rw [List.map_map]
      exact List.map_id _
    refine ⟨_, by unfold rank; rw [hm]; rfl, ranks_sortBestFirst hactions ?_⟩
    intro x hx
    obtain ⟨action, -, rfl⟩ := List.mem_map.1 hx
    exact .logit hm (m.logit_spec action)

/-- A policy that has no number for any action still ranks all of them. -/
theorem rank_legal_policy :
    (fresh.withPolicyModel ⟨∅, 0 / 0⟩).Ready .policy ∧
      ∃ ranked, Evaluator.rank (fresh.withPolicyModel ⟨∅, 0 / 0⟩) 0 (LoopNest.matmul 64 64 64)
          .policy = .ok ranked ∧
        Ranks (fresh.withPolicyModel ⟨∅, 0 / 0⟩) 0 (LoopNest.matmul 64 64 64) .policy ranked :=
  ⟨rfl, rank_legal _ 0 (LoopNest.matmul 64 64 64) .policy rfl⟩

end AnalyticEvaluator

end ScheduleSearch

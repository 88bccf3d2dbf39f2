/-
  The models of an evaluator, and the digests beside them.

  Models come and go by calls in any order: a file is loaded, whatever the disk holds then, an
  empty path takes a model out of use, and a model is given as it is.

  * `ModelCall` is such a call, `Updates` what a call that succeeds puts into use for its kind,
    and of which file it keeps the digest;
  * `ModelSlot`: a model together with its digest, as which the two places that an evaluator has
    for a kind are read and written (`Holds`, `withSlot`); they can be read so exactly if there
    is no digest without a model (`exists_holds_iff`);
  * `load_eq_ok_iff`, `eq_of_load_error`: a load succeeds exactly if it updates its kind, and
    changes nothing if it fails;
  * `perform_updates`, `perform_keeps`: what one call makes of the models of a kind;
  * **`models_in_step`**: after any calls, the model of a kind and its digest are those of the
    latest call that updates the kind.
-/
import Mathlib.Data.List.Basic
import ScheduleSearch.World.Analytic

namespace ScheduleSearch

namespace ModelKind

/-- The models of a kind. -/
abbrev Model : ModelKind → Type
  | cost => CostModel
  | policy => PolicyModel

/-- The model that the value in a file spells. -/
def ofValue? : (kind : ModelKind) → Json.Value → Option kind.Model
  | cost => ModelFile.cost?
  | policy => ModelFile.policy?

/-- The model that the bytes of a file spell. -/
def decode? (kind : ModelKind) (bytes : List UInt8) : Option kind.Model :=
  (Json.Value.read? bytes).bind kind.ofValue?

end ModelKind

/-- A call that is to change a model.  Each load has the disk as it is at that time. -/
inductive ModelCall where
  | load (disk : Disk) (kind : ModelKind) (path : String)
  | give (kind : ModelKind) (model : kind.Model)

/-- The call succeeds, and what it puts into use for the kind: a model or none, and the digest
    of the file that the model was loaded from, if it was. -/
inductive ModelCall.Updates :
    ModelCall → (kind : ModelKind) → Option kind.Model → Option ContentHash → Prop
  | unload {disk : Disk} {kind : ModelKind} : Updates (.load disk kind "") kind none none
  | load {disk : Disk} {kind : ModelKind} {path : String} {bytes : List UInt8}
      {model : kind.Model} : path ≠ "" → disk path = .ok bytes → kind.decode? bytes = some model →
      Updates (.load disk kind path) kind (some model)
        (some (.of ContentHash.modelDomain bytes))
  | give {kind : ModelKind} {model : kind.Model} : Updates (.give kind model) kind (some model) none

/-- The call succeeds, and is about the kind. -/
def ModelCall.Changes (call : ModelCall) (kind : ModelKind) : Prop :=
  ∃ model digest, call.Updates kind model digest

/-- The kind that the call is about. -/
def ModelCall.kind : ModelCall → ModelKind
  | load _ kind _ | give kind _ => kind

/-- A place for a model: empty, or with a model that was given, or with one that was loaded
    from a file with this digest. -/
inductive ModelSlot (μ : Type) where
  | empty
  | given (model : μ)
  | loaded (model : μ) (digest : ContentHash)

namespace ModelSlot

variable {μ : Type}

def model? : ModelSlot μ → Option μ
  | empty => none
  | given model | loaded model _ => some model

def digest? : ModelSlot μ → Option ContentHash
  | loaded _ digest => some digest
  | empty | given _ => none

/-- What a load leaves: the model that was read, or nothing. -/
def ofLoaded : Option (μ × ContentHash) → ModelSlot μ
  | some (model, digest) => loaded model digest
  | none => empty

theorem unzip_eq (read : Option (μ × ContentHash)) :
    AnalyticEvaluator.unzip read = ((ofLoaded read).model?, (ofLoaded read).digest?) := by
  cases read <;> rfl

/-- A model and a digest are those of a slot exactly if there is no digest without a model. -/
theorem exists_iff {model : Option μ} {digest : Option ContentHash} :
    (∃ slot : ModelSlot μ, model = slot.model? ∧ digest = slot.digest?) ↔
      (digest.isSome → model.isSome) := by
  constructor
  · rintro ⟨slot, rfl, rfl⟩
    cases slot <;> simp [model?, digest?]
  · intro h
    cases model with
    | none =>
      cases digest with
      | none => exact ⟨empty, rfl, rfl⟩
      | some digest => cases h rfl
    | some model =>
      cases digest with
      | none => exact ⟨given model, rfl, rfl⟩
      | some digest => exact ⟨loaded model digest, rfl, rfl⟩

end ModelSlot

namespace AnalyticEvaluator

/-- The model of a kind that is in use. -/
def model? (e : AnalyticEvaluator) : (kind : ModelKind) → Option kind.Model
  | .cost => e.cost
  | .policy => e.policy

/-- The evaluator after a call, whether or not it succeeds. -/
def perform (e : AnalyticEvaluator) : ModelCall → AnalyticEvaluator
  | .load disk kind path =>
    match load disk kind path e with
    | .ok _ e' | .error _ e' => e'
  | .give .cost model => e.withCostModel model
  | .give .policy model => e.withPolicyModel model

/-- The evaluator after several calls, in order. -/
def after (e : AnalyticEvaluator) (calls : List ModelCall) : AnalyticEvaluator :=
  calls.foldl perform e

/-! ## Slots -/

/-- The evaluator with another slot for a kind. -/
def withSlot (e : AnalyticEvaluator) : (kind : ModelKind) → ModelSlot kind.Model → AnalyticEvaluator
  | .cost, slot => { e with cost := slot.model?, costDigest := slot.digest? }
  | .policy, slot => { e with policy := slot.model?, policyDigest := slot.digest? }

/-- The model and the digest of a kind are those of the slot. -/
def Holds (e : AnalyticEvaluator) (kind : ModelKind) (slot : ModelSlot kind.Model) : Prop :=
  e.model? kind = slot.model? ∧ e.digest? kind = slot.digest?

variable {e e' : AnalyticEvaluator} {kind other : ModelKind} {disk : Disk} {path : String}

/-- There is a slot for a kind exactly if it has no digest without a model. -/
theorem exists_holds_iff : (∃ slot, e.Holds kind slot) ↔
    ((e.digest? kind).isSome → (e.model? kind).isSome) :=
  ModelSlot.exists_iff

theorem holds_withSlot (slot : ModelSlot kind.Model) : (e.withSlot kind slot).Holds kind slot := by
  cases kind <;> exact ⟨rfl, rfl⟩

theorem withSlot_other (hother : other ≠ kind) (slot : ModelSlot kind.Model) :
    (e.withSlot kind slot).model? other = e.model? other ∧
      (e.withSlot kind slot).digest? other = e.digest? other := by
  cases kind <;> cases other
  · exact absurd rfl hother
  · exact ⟨rfl, rfl⟩
  · exact ⟨rfl, rfl⟩
  · exact absurd rfl hother

/-- A model that is given takes the place of the digest too. -/
theorem perform_give (model : kind.Model) :
    e.perform (.give kind model) = e.withSlot kind (.given model) := by
  cases kind <;> rfl

/-! ## Loads -/

/-- What is read is put in place, and reported. -/
theorem load_of_read {read : Option (kind.Model × ContentHash)}
    (h : readPath disk kind.ofValue? path = .ok read) :
    load disk kind path e =
      .ok [.modelUpdated kind.name path (!path.isEmpty)
          (((ModelSlot.ofLoaded read).digest?.map (·.text)).getD "")]
        (e.withSlot kind (.ofLoaded read)) := by
  cases kind with
  | cost =>
    have hread : readPath disk ModelFile.cost? path = .ok read := h
    simp only [load, hread, Except.map, ModelSlot.unzip_eq]
    rfl
  | policy =>
    have hread : readPath disk ModelFile.policy? path = .ok read := h
    simp only [load, hread, Except.map, ModelSlot.unzip_eq]
    rfl

theorem load_of_unread {err : EvalError} (h : readPath disk kind.ofValue? path = .error err) :
    load disk kind path e = .error err e := by
  cases kind with
  | cost =>
    have hread : readPath disk ModelFile.cost? path = .error err := h
    simp only [load, hread, Except.map]
  | policy =>
    have hread : readPath disk ModelFile.policy? path = .error err := h
    simp only [load, hread, Except.map]

theorem readPath_empty : readPath disk kind.ofValue? "" = .ok none :=
  if_pos rfl

theorem readPath_loaded {bytes : List UInt8} {model : kind.Model} (hpath : path ≠ "")
    (hdisk : disk path = .ok bytes) (hmodel : kind.decode? bytes = some model) :
    readPath disk kind.ofValue? path =
      .ok (some (model, .of ContentHash.modelDomain bytes)) := by
  have hvalue : (Json.Value.read? bytes).bind kind.ofValue? = some model := hmodel
  unfold readPath readModel
  rw [if_neg (by simpa using hpath)]
  simp only [hdisk, hvalue, Except.map]

/-- A load whose path can be read updates its kind. -/
theorem changes_of_read {read : Option (kind.Model × ContentHash)}
    (h : readPath disk kind.ofValue? path = .ok read) :
    (ModelCall.load disk kind path).Changes kind := by
  unfold readPath readModel at h
  split at h
  · next hempty =>
    obtain rfl := String.isEmpty_iff.1 hempty
    exact ⟨_, _, .unload⟩
  · next hpath =>
    split at h
    · cases h
    · next bytes hdisk =>
      split at h
      · cases h
      · next model hmodel => exact ⟨_, _, .load (by simpa using hpath) hdisk hmodel⟩

/-- **A load succeeds** exactly if it updates its kind. -/
theorem load_eq_ok_iff : (∃ events e', load disk kind path e = .ok events e') ↔
    (ModelCall.load disk kind path).Changes kind := by
  constructor
  · rintro ⟨events, e', h⟩
    cases hread : readPath disk kind.ofValue? path with
    | error err =>
      rw [load_of_unread hread] at h
      cases h
    | ok read => exact changes_of_read hread
  · rintro ⟨model, digest, h⟩
    cases h with
    | unload => exact ⟨_, _, load_of_read readPath_empty⟩
    | load hpath hdisk hmodel => exact ⟨_, _, load_of_read (readPath_loaded hpath hdisk hmodel)⟩

/-- A load that fails changes nothing. -/
theorem eq_of_load_error {err : EvalError} (h : load disk kind path e = .error err e') : e' = e := by
  cases hread : readPath disk kind.ofValue? path with
  | error err' =>
    rw [load_of_unread hread] at h
    cases h
    rfl
  | ok read =>
    rw [load_of_read hread] at h
    cases h

/-! ## Calls -/

variable {call : ModelCall} {model : Option kind.Model} {digest : Option ContentHash}

theorem perform_load {read : Option (kind.Model × ContentHash)} (e : AnalyticEvaluator)
    (h : readPath disk kind.ofValue? path = .ok read) :
    e.perform (.load disk kind path) = e.withSlot kind (.ofLoaded read) := by
  simp only [perform, load_of_read h]

theorem perform_unread {err : EvalError} (e : AnalyticEvaluator)
    (h : readPath disk kind.ofValue? path = .error err) :
    e.perform (.load disk kind path) = e := by
  simp only [perform, load_of_unread h]

/-- A call that updates a kind leaves the model and the digest that it puts into use. -/
theorem perform_updates (e : AnalyticEvaluator) (h : call.Updates kind model digest) :
    (e.perform call).model? kind = model ∧ (e.perform call).digest? kind = digest := by
  cases h with
  | unload =>
    rw [perform_load e readPath_empty]
    exact holds_withSlot _
  | load hpath hdisk hmodel =>
    rw [perform_load e (readPath_loaded hpath hdisk hmodel)]
    exact holds_withSlot _
  | give =>
    rw [perform_give]
    exact holds_withSlot _

/-- A call about another kind leaves the model and the digest of a kind. -/
theorem perform_other (e : AnalyticEvaluator) (h : call.kind ≠ kind) :
    (e.perform call).model? kind = e.model? kind ∧
      (e.perform call).digest? kind = e.digest? kind := by
  cases call with
  | load disk other path =>
    cases hread : readPath disk other.ofValue? path with
    | ok read =>
      rw [perform_load e hread]
      exact withSlot_other (Ne.symm h) _
    | error err =>
      rw [perform_unread e hread]
      exact ⟨rfl, rfl⟩
  | give other model =>
    rw [perform_give]
    exact withSlot_other (Ne.symm h) _

/-- A call that does not change a kind leaves its model and its digest. -/
theorem perform_keeps (e : AnalyticEvaluator) (h : ¬ call.Changes kind) :
    (e.perform call).model? kind = e.model? kind ∧
      (e.perform call).digest? kind = e.digest? kind := by
  by_cases hkind : call.kind = kind
  · subst hkind
    cases call with
    | load disk kind path =>
      cases hread : readPath disk kind.ofValue? path with
      | ok read => exact absurd (changes_of_read hread) h
      | error err =>
        rw [perform_unread e hread]
        exact ⟨rfl, rfl⟩
    | give kind model => exact absurd ⟨_, _, .give⟩ h
  · exact perform_other e hkind

/-! ## Sequences of calls -/

/-- The model of a kind and the digest beside it, after calls that start at `e`: those of the
    latest call that changes the kind, or those of `e` if there is none. -/
inductive Latest (e : AnalyticEvaluator) (calls : List ModelCall) (kind : ModelKind) :
    Option kind.Model → Option ContentHash → Prop
  | updated {model : Option kind.Model} {digest : Option ContentHash}
      {earlier later : List ModelCall} {call : ModelCall} : calls = earlier ++ call :: later →
      call.Updates kind model digest → (∀ c ∈ later, ¬ c.Changes kind) →
      Latest e calls kind model digest
  | unchanged : (∀ c ∈ calls, ¬ c.Changes kind) →
      Latest e calls kind (e.model? kind) (e.digest? kind)

theorem latest_after (e : AnalyticEvaluator) (calls : List ModelCall) (kind : ModelKind) :
    Latest e calls kind ((e.after calls).model? kind) ((e.after calls).digest? kind) := by
  induction calls generalizing e with
  | nil => exact .unchanged nofun
  | cons call calls ih =>
    show Latest e (call :: calls) kind (((e.perform call).after calls).model? kind)
      (((e.perform call).after calls).digest? kind)
    have hrest := ih (e.perform call)
    generalize ((e.perform call).after calls).model? kind = model at *
    generalize ((e.perform call).after calls).digest? kind = digest at *
    cases hrest with
    | @updated _ _ earlier later last hcalls hupdates hlater =>
      have hsplit : call :: calls = (call :: earlier) ++ last :: later :=
        congrArg (call :: ·) hcalls
      exact .updated hsplit hupdates hlater
    | unchanged hnone =>
      by_cases hcall : call.Changes kind
      · obtain ⟨model, digest, hupdates⟩ := hcall
        obtain ⟨hmodel, hdigest⟩ := perform_updates e hupdates
        rw [hmodel, hdigest]
        have hsplit : call :: calls = [] ++ call :: calls := rfl
        exact .updated hsplit hupdates hnone
      · obtain ⟨hmodel, hdigest⟩ := perform_keeps e hcall
        rw [hmodel, hdigest]
        exact .unchanged (List.forall_mem_cons.2 ⟨hcall, hnone⟩)

/-- A call that updates a kind fills a slot. -/
theorem exists_slot_of_updates (h : call.Updates kind model digest) :
    ∃ slot : ModelSlot kind.Model, model = slot.model? ∧ digest = slot.digest? := by
  cases h with
  | unload => exact ⟨.empty, rfl, rfl⟩
  | load _ _ _ => exact ⟨.loaded _ _, rfl, rfl⟩
  | give => exact ⟨.given _, rfl, rfl⟩

/-- Calls leave no digest without a model. -/
theorem holds_after (calls : List ModelCall) (h : ∃ slot, e.Holds kind slot) :
    ∃ slot, (e.after calls).Holds kind slot := by
  have hlatest := latest_after e calls kind
  unfold Holds
  generalize (e.after calls).model? kind = model at *
  generalize (e.after calls).digest? kind = digest at *
  cases hlatest with
  | updated _ hupdates _ => exact exists_slot_of_updates hupdates
  | unchanged _ => exact h

/-- **Models and digests stay in step.**  After any calls, the model of a kind and the digest
    beside it are those of the latest call that changed the kind, and there is no digest without
    a model if there was none before.  A load succeeds exactly if it takes the model in a file
    into use, or with an empty path the one there is out of use; one that fails leaves the models
    and digests of both kinds, and no call about one kind changes the other. -/
theorem models_in_step (e : AnalyticEvaluator) (calls : List ModelCall) :
    Latest e calls .cost (e.after calls).cost (e.after calls).costDigest ∧
    Latest e calls .policy (e.after calls).policy (e.after calls).policyDigest ∧
    (∀ kind, ((e.digest? kind).isSome → (e.model? kind).isSome) →
      ((e.after calls).digest? kind).isSome → ((e.after calls).model? kind).isSome) ∧
    (∀ disk kind path, (∃ events e', load disk kind path (e.after calls) = .ok events e') ↔
      (ModelCall.load disk kind path).Changes kind) ∧
    (∀ disk kind path err e', load disk kind path (e.after calls) = .error err e' →
      e' = e.after calls) ∧
    ∀ (call : ModelCall) (kind : ModelKind), call.kind ≠ kind →
      ((e.after calls).perform call).model? kind = (e.after calls).model? kind ∧
        ((e.after calls).perform call).digest? kind = (e.after calls).digest? kind :=
  ⟨latest_after e calls .cost, latest_after e calls .policy,
    fun _ h => exists_holds_iff.1 (holds_after calls (exists_holds_iff.2 h)),
    fun _ _ _ => load_eq_ok_iff, fun _ _ _ _ _ => eq_of_load_error, fun _ _ => perform_other _⟩

/-- A malformed cost file is refused beside a model that was given, and a policy file that was
    loaded beside it is taken out of use. -/
theorem models_in_step_refused :
    let disk : Disk := fun path =>
      if path = "costs" then .ok "not json".toUTF8.data.toList
      else .ok "[{}]".toUTF8.data.toList
    let costs : CostModel := ⟨1, ∅⟩
    let calls : List ModelCall :=
      [.give .cost costs, .load disk .policy "policy", .load disk .cost "costs"]
    let unload := ModelCall.load disk .policy ""
    Latest fresh calls .cost (some costs) none ∧
    Latest fresh calls .policy (some ⟨∅, 0⟩)
      (some (.of ContentHash.modelDomain "[{}]".toUTF8.data.toList)) ∧
    fresh.digest? .policy = none ∧
    (((fresh.after calls).digest? .policy).isSome → ((fresh.after calls).model? .policy).isSome) ∧
    load disk .cost "costs" (fresh.after calls) =
      .error (.modelLoad "costs" malformed) (fresh.after calls) ∧
    unload.kind ≠ .cost ∧
    ((fresh.after calls).perform unload).model? .cost = (fresh.after calls).model? .cost := by
  intro disk costs calls unload
  obtain ⟨hcost, hpolicy, hbeside, -, hfail, hother⟩ := models_in_step fresh calls
  have hload : load disk .cost "costs" (fresh.after calls) =
      .error (.modelLoad "costs" malformed) (fresh.after calls) := rfl
  have hkind : unload.kind ≠ .cost := nofun
  exact ⟨hcost, hpolicy, rfl, hbeside .policy nofun, hfail _ _ _ _ _ hload ▸ hload, hkind,
    (hother unload .cost hkind).1⟩

end AnalyticEvaluator

end ScheduleSearch

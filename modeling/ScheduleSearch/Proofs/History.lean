/-
  The history of an agent: what it certifies, and how it is taken back.

  An agent keeps its history beside its state, and undoes an action from a snapshot or by
  reading the history backwards.  A `Journal` is the plain way to do the same: beside the
  agent one writes down the agent as it was when the history was last forgotten, and the
  agent as it was before each action that still stands.

  * `Reversible` says what one action, one undo and one forgotten history do to an agent;
    loop nests and up/down states are reversible;
  * `Trail`: the actions of a journal lead, one by one, from its base to the agent
    (`trail_journal`);
  * `Faithful`: replaying the history restores the agent, and an undo restores the agent
    that the journal shows;
  * `UpDown.Tally` is an up/down state whose score has no bounds: the score of an up/down
    state is that of its tally while 32 bits hold it (`UpDown.score_eq_tally`);
  * **`history_certifies`**: both worlds are faithful after every sequence of calls, a loop
    nest has as many snapshots as actions, and no score underflows.
-/
import Mathlib.Data.List.Basic
import ScheduleSearch.Proofs.Calls
import ScheduleSearch.Proofs.UpDownWorld
import ScheduleSearch.World.LoopNest

namespace ScheduleSearch

namespace Agent

/-- An agent whose actions can be taken back one by one. -/
class Reversible (α : Type) [Agent α] : Prop where
  /-- an action that is rejected leaves the agent as it was -/
  eq_of_rejected {name : String} {a b : α} {err : AgentError} :
    apply name a = .error err b → b = a
  history_of_moves {name : String} {a b : α} : Moves a name b → history b = history a ++ [name]
  undo_of_moves {name : String} {a b : α} : Moves a name b → undo b = .ok () a
  history_forget (a : α) : history (forget a) = []
  undo_forget (a : α) : undo (forget a) = .error .nothingToUndo (forget a)
  forget_forget (a : α) : forget (forget a) = forget a

variable {α : Type} [Agent α]

/-- What is written down beside an agent: the agent as it was at the start or when its
    history was last forgotten, and the actions that stand since then, the latest first,
    each with the agent as it was before. -/
structure Journal (α : Type) where
  base : α
  steps : List (String × α)

namespace Journal

/-- Writes down the actions that `a` accepts, up to the first that is rejected. -/
def replayed (j : Journal α) (a : α) : List String → Journal α
  | [] => j
  | name :: names =>
    match changed a (apply name) with
    | .ok b => replayed ⟨j.base, (name, a) :: j.steps⟩ b names
    | .error _ => j

/-- Writes down a call of `a`. -/
def called (j : Journal α) (a : α) : Call → Journal α
  | .apply name => j.replayed a [name]
  | .undo =>
    match changed a undo with
    | .ok _ => ⟨j.base, j.steps.tail⟩
    | .error _ => j
  | .clear => ⟨forget a, []⟩
  | .replay names => j.replayed a names

/-- The journal `j` of `a` after the calls. -/
def after (j : Journal α) (a : α) : List Call → Journal α
  | [] => j
  | call :: calls => (j.called a call).after (perform a call) calls

/-- What an undo of `a` is to give: the agent before the latest action that stands. -/
def undone (j : Journal α) (a : α) : EStateM.Result AgentError α Unit :=
  match j.steps with
  | [] => .error .nothingToUndo a
  | (_, before) :: _ => .ok () before

end Journal

/-- The journal of the calls of `a`. -/
def journal (a : α) (calls : List Call) : Journal α :=
  Journal.after ⟨a, []⟩ a calls

/-- What the history and the undo of an agent promise after the calls. -/
structure Faithful (start : α) (calls : List Call) : Prop where
  /-- the history is replayed on the agent right after it was last forgotten, or on the
      first agent if it never was -/
  replays (earlier later : List Call) : calls = earlier ++ later → .clear ∉ later →
    earlier = [] ∨ earlier.getLast? = some .clear →
      Replays (after start earlier) (history (after start calls)) (after start calls)
  history : history (after start calls) = ((journal start calls).steps.map (·.1)).reverse
  undo : undo (after start calls) = (journal start calls).undone (after start calls)
  eq_of_rejected (name : String) (err : AgentError) (b : α) :
    apply name (after start calls) = .error err b → b = after start calls
  /-- a replay that fails has applied what stands before the first rejected action -/
  replay_rejected (names : List String) (err : AgentError) (b : α) :
    replay names (after start calls) = .error err b →
      ∃ accepted name rest, names = accepted ++ name :: rest ∧
        Replays (after start calls) accepted b ∧ apply name b = .error err b

/-! ## Single actions and replays -/

section

variable {name : String} {names : List String} {a b : α} {err : AgentError} {j : Journal α}

theorem moves_iff_apply : Moves a name b ↔ apply name a = .ok () b := by
  unfold Moves changed EStateM.run
  cases apply name a <;> simp

theorem leftBy_of_moves (h : Moves a name b) : leftBy (apply name) a = b := by
  unfold leftBy
  rw [moves_iff_apply.1 h]

theorem leftBy_replay_of_moves (h : Moves a name b) :
    leftBy (replay (name :: names)) a = leftBy (replay names) b := by
  unfold leftBy
  simp only [replay, bind, EStateM.bind, moves_iff_apply.1 h]

theorem leftBy_replay_singleton (name : String) (a : α) :
    leftBy (replay [name]) a = leftBy (apply name) a := by
  unfold leftBy
  simp only [replay, bind, EStateM.bind]
  cases apply name a <;> rfl

theorem base_replayed : (j.replayed a names).base = j.base := by
  induction names generalizing j a with
  | nil => rfl
  | cons name names ih =>
    unfold Journal.replayed
    split
    · exact ih
    · rfl

variable [Reversible α]

/-- An action is accepted, or leaves the agent as it was. -/
theorem moves_or_rejected (name : String) (a : α) :
    (∃ b, Moves a name b) ∨ ∃ err, apply name a = .error err a := by
  cases happly : apply name a with
  | ok _ b => exact .inl ⟨b, moves_iff_apply.2 happly⟩
  | error err b => exact .inr ⟨err, by rw [Reversible.eq_of_rejected happly]⟩

theorem replays_of_rejected (h : replay names a = .error err b) :
    ∃ accepted name rest, names = accepted ++ name :: rest ∧ Replays a accepted b ∧
      apply name b = .error err b := by
  induction names generalizing a with
  | nil => cases h
  | cons name names ih =>
    simp only [replay, bind, EStateM.bind] at h
    rcases moves_or_rejected name a with ⟨c, hc⟩ | ⟨err', herr⟩
    · rw [moves_iff_apply.1 hc] at h
      obtain ⟨accepted, name', rest, rfl, haccepted, hrejected⟩ := ih h
      exact ⟨name :: accepted, name', rest, rfl, replays_cons.2 ⟨c, hc, haccepted⟩, hrejected⟩
    · rw [herr] at h
      obtain ⟨rfl, rfl⟩ : err' = err ∧ a = b := by simpa using h
      exact ⟨[], name, names, rfl, replays_nil.2 rfl, herr⟩

end

/-! ## Trails -/

/-- The steps lead from `base` to `a`, each from the agent that it shows. -/
inductive Trail (base : α) : List (String × α) → α → Prop
  | start : Trail base [] base
  | step {steps : List (String × α)} {name : String} {a b : α} : Trail base steps a →
      Moves a name b → Trail base ((name, a) :: steps) b

namespace Trail

variable [Reversible α] {base a : α} {steps : List (String × α)} {j : Journal α}

theorem history (h : Trail base steps a) (hbase : forget base = base) :
    history a = (steps.map (·.1)).reverse := by
  induction h with
  | start => exact hbase ▸ Reversible.history_forget base
  | step _ hmove ih => rw [Reversible.history_of_moves hmove, ih]; simp

theorem replays (h : Trail base steps a) (hbase : forget base = base) :
    Replays base (Agent.history a) a := by
  rw [h.history hbase]
  induction h with
  | start => exact replays_nil.2 rfl
  | @step steps name a b _ hmove ih =>
    rw [List.map_cons, List.reverse_cons]
    exact replays_concat.2 ⟨a, ih, hmove⟩

theorem undo (h : Trail j.base j.steps a) (hbase : forget j.base = j.base) :
    undo a = j.undone a := by
  obtain ⟨base, steps⟩ := j
  cases h with
  | start =>
    have := Reversible.undo_forget base
    rwa [show forget base = base from hbase] at this
  | step _ hmove => exact Reversible.undo_of_moves hmove

theorem replayed (h : Trail j.base j.steps a) (names : List String) :
    Trail (j.replayed a names).base (j.replayed a names).steps (leftBy (replay names) a) := by
  induction names generalizing j a with
  | nil => exact h
  | cons name names ih =>
    rcases moves_or_rejected name a with ⟨b, hb⟩ | ⟨err, herr⟩
    · rw [leftBy_replay_of_moves hb, Journal.replayed, hb]
      exact ih (.step h hb)
    · have hleft : leftBy (replay (name :: names)) a = a := by
        simp only [leftBy, replay, bind, EStateM.bind, herr]
      have hchanged : changed a (apply name) = .error err := by
        simp only [changed, EStateM.run, herr]
      rw [hleft, Journal.replayed, hchanged]
      exact h

/-- A call keeps a journal true. -/
theorem called (h : Trail j.base j.steps a) (hbase : forget j.base = j.base) (call : Call) :
    Trail (j.called a call).base (j.called a call).steps (perform a call) := by
  cases call with
  | apply name =>
    have := h.replayed [name]
    rwa [leftBy_replay_singleton] at this
  | replay names => exact h.replayed names
  | clear => exact .start
  | undo =>
    have hundo := h.undo hbase
    obtain ⟨base, steps⟩ := j
    cases h with
    | start =>
      simp only [Journal.called, changed, EStateM.run, perform, leftBy, hundo, Journal.undone]
      exact .start
    | step h hmove =>
      simp only [Journal.called, changed, EStateM.run, perform, leftBy, hundo, Journal.undone,
        List.tail_cons]
      exact h

end Trail

/-! ## Journals of several calls -/

section

variable {a : α} {call : Call} {calls earlier later : List Call} {j : Journal α}

theorem base_called (h : call ≠ .clear) : (j.called a call).base = j.base := by
  cases call with
  | apply name => exact base_replayed
  | replay names => exact base_replayed
  | clear => exact absurd rfl h
  | undo =>
    simp only [Journal.called]
    split <;> rfl

theorem base_after (h : .clear ∉ calls) : (j.after a calls).base = j.base := by
  induction calls generalizing j a with
  | nil => rfl
  | cons call calls ih =>
    obtain ⟨hcall, hcalls⟩ := not_or.1 (mt List.mem_cons.2 h)
    rw [Journal.after, ih hcalls, base_called (Ne.symm hcall)]

theorem after_append (a : α) (earlier later : List Call) :
    after a (earlier ++ later) = after (after a earlier) later :=
  List.foldl_append

theorem journal_append (j : Journal α) (a : α) (earlier later : List Call) :
    j.after a (earlier ++ later) = (j.after a earlier).after (after a earlier) later := by
  induction earlier generalizing j a with
  | nil => rfl
  | cons call earlier ih => exact ih _ _

/-- The base of a journal is the agent right after the last call that forgot the history. -/
theorem base_journal (h : .clear ∉ later)
    (hearlier : earlier = [] ∨ earlier.getLast? = some .clear) :
    (journal a (earlier ++ later)).base = after a earlier := by
  rw [journal, journal_append, base_after h]
  rcases hearlier with rfl | hlast
  · rfl
  · obtain ⟨calls, rfl⟩ := List.getLast?_eq_some_iff.1 hlast
    rw [journal_append, after_append]
    rfl

variable [Reversible α]

theorem trail_after (h : Trail j.base j.steps a) (hbase : forget j.base = j.base)
    (calls : List Call) :
    Trail (j.after a calls).base (j.after a calls).steps (after a calls) ∧
      forget (j.after a calls).base = (j.after a calls).base := by
  induction calls generalizing j a with
  | nil => exact ⟨h, hbase⟩
  | cons call calls ih =>
    refine ih (h.called hbase call) ?_
    by_cases hcall : call = .clear
    · rw [hcall]
      exact Reversible.forget_forget a
    · rw [base_called hcall]
      exact hbase

theorem trail_journal (ha : forget a = a) (calls : List Call) :
    Trail (journal a calls).base (journal a calls).steps (after a calls) ∧
      forget (journal a calls).base = (journal a calls).base :=
  trail_after (j := ⟨a, []⟩) .start ha calls

/-- An agent that starts without a history is faithful to it. -/
theorem faithful (ha : forget a = a) (calls : List Call) : Faithful a calls := by
  obtain ⟨htrail, hbase⟩ := trail_journal ha calls
  exact {
    replays := by
      rintro earlier later rfl hlater hearlier
      rw [← base_journal hlater hearlier]
      exact htrail.replays hbase
    history := htrail.history hbase
    undo := htrail.undo hbase
    eq_of_rejected := fun _ _ _ h => Reversible.eq_of_rejected h
    replay_rejected := fun _ _ _ h => replays_of_rejected h }

end

end Agent

open Agent

/-! ## Loop nests -/

namespace LoopNest

/-- An accepted action adds its name and a snapshot. -/
theorem moves_cases {name : String} {a b : LoopNest} (h : Moves a name b) :
    ∃ nest, b = ⟨nest, a.actions ++ [name], a.nest :: a.saved⟩ := by
  have h : LoopNest.apply name a = .ok () b := moves_iff_apply.1 h
  unfold LoopNest.apply at h
  split at h
  · cases h
  · split at h
    · cases h
    · cases h
      exact ⟨_, rfl⟩

instance : Reversible LoopNest where
  eq_of_rejected {name a b err} h := by
    have h : LoopNest.apply name a = .error err b := h
    unfold LoopNest.apply at h
    split at h
    · cases h; rfl
    · split at h
      · cases h; rfl
      · cases h
  history_of_moves h := by
    obtain ⟨nest, rfl⟩ := moves_cases h
    rfl
  undo_of_moves {name a b} h := by
    obtain ⟨nest, rfl⟩ := moves_cases h
    show EStateM.Result.ok () (⟨a.nest, (a.actions ++ [name]).dropLast, a.saved⟩ : LoopNest) = _
    rw [List.dropLast_concat]
  history_forget _ := rfl
  undo_forget _ := rfl
  forget_forget _ := rfl

/-- There is a snapshot for each action of the history. -/
theorem length_saved_after {a : LoopNest} (h : a.saved.length = a.actions.length)
    (calls : List Call) : (after a calls).saved.length = (after a calls).actions.length := by
  refine after_keeps (I := fun a : LoopNest => a.saved.length = a.actions.length) ?_ ?_
    (fun _ _ => rfl) calls h
  · intro name a ha
    rcases moves_or_rejected name a with ⟨b, hb⟩ | ⟨err, herr⟩
    · rw [leftBy_of_moves hb]
      obtain ⟨nest, rfl⟩ := moves_cases hb
      simp [ha]
    · simpa only [leftBy, herr] using ha
  · intro a ha
    show (leftBy LoopNest.undo a).saved.length = (leftBy LoopNest.undo a).actions.length
    unfold leftBy LoopNest.undo
    cases hsaved : a.saved with
    | nil => exact ha
    | cons nest saved =>
      rw [hsaved, List.length_cons] at ha
      simp [← ha]

end LoopNest

/-! ## Up/down states -/

namespace UpDown

instance : Reversible UpDown where
  eq_of_rejected {name a b err} h := by
    have h : UpDown.apply name a = .error err b := h
    unfold UpDown.apply at h
    split at h <;> cases h
    rfl
  history_of_moves h := by
    rcases moves_iff.1 h with ⟨rfl, rfl⟩ | ⟨rfl, rfl⟩ <;> rfl
  undo_of_moves h := by
    rcases moves_iff.1 h with ⟨rfl, rfl⟩ | ⟨rfl, rfl⟩ <;>
      simp [Agent.undo, UpDown.undo]
  history_forget _ := rfl
  undo_forget _ := rfl
  forget_forget _ := rfl

/-- An up/down state whose score has no bounds. -/
structure Tally where
  score : Int
  actions : List String

namespace Tally

def apply (action : String) : EStateM AgentError Tally Unit := fun t =>
  match action with
  | "up" => .ok () ⟨t.score + 1, t.actions ++ [action]⟩
  | "down" => .ok () ⟨t.score, t.actions ++ [action]⟩
  | _ => .error (.unknownAction action) t

def undo : EStateM AgentError Tally Unit := fun t =>
  match t.actions.getLast? with
  | none => .error .nothingToUndo t
  | some action =>
    .ok () ⟨if action = "up" then t.score - 1 else t.score, t.actions.dropLast⟩

instance : Agent Tally where
  history := actions
  forget t := { t with actions := [] }
  dump t := ",".intercalate t.actions
  available _ := ["up", "down"]
  apply := apply
  undo := undo

end Tally

/-- The state with the score of a tally, as 32 bits hold it, and its history; the score of
    the tally covers each `up` of the history. -/
structure Tallied (t : Tally) (a : UpDown) : Prop where
  actions : t.actions = a.actions
  score : (a.score.toNat : Int) = t.score % 2 ^ 32
  ups : (t.actions.count "up" : Int) ≤ t.score

namespace Tallied

variable {t : Tally} {a : UpDown}

theorem up (h : Tallied t a) :
    Tallied ⟨t.score + 1, t.actions ++ ["up"]⟩ ⟨a.score + 1, a.actions ++ ["up"]⟩ where
  actions := congrArg (· ++ ["up"]) h.actions
  score := by
    have hscore := h.score
    have hone : (1 : UInt32).toNat = 1 := rfl
    rw [UInt32.toNat_add]
    show ((_ : Nat) : Int) = (t.score + 1) % 2 ^ 32
    omega
  ups := by
    have hups := h.ups
    rw [List.count_append, List.count_singleton_self]
    show ((_ : Nat) : Int) ≤ t.score + 1
    omega

theorem down (h : Tallied t a) :
    Tallied ⟨t.score, t.actions ++ ["down"]⟩ ⟨a.score, a.actions ++ ["down"]⟩ where
  actions := congrArg (· ++ ["down"]) h.actions
  score := h.score
  ups := by
    rw [List.count_append]
    exact h.ups

/-- A tally and its state accept the same actions. -/
theorem moves (h : Tallied t a) (name : String) :
    (∃ t' a', Moves t name t' ∧ Moves a name a' ∧ Tallied t' a') ∨
      ∃ err, Agent.apply name t = .error err t ∧ Agent.apply name a = .error err a := by
  by_cases hup : name = "up"
  · subst hup
    exact .inl ⟨_, _, rfl, moves_iff.2 (.inl ⟨rfl, rfl⟩), h.up⟩
  by_cases hdown : name = "down"
  · subst hdown
    exact .inl ⟨_, _, rfl, moves_iff.2 (.inr ⟨rfl, rfl⟩), h.down⟩
  · refine .inr ⟨.unknownAction name, ?_, ?_⟩
    · simp [Agent.apply, Tally.apply]
    · simp [Agent.apply, UpDown.apply]

theorem replay (h : Tallied t a) (names : List String) :
    Tallied (leftBy (Agent.replay names) t) (leftBy (Agent.replay names) a) := by
  induction names generalizing t a with
  | nil => exact h
  | cons name names ih =>
    rcases h.moves name with ⟨t', a', ht, ha, h'⟩ | ⟨err, ht, ha⟩
    · rw [leftBy_replay_of_moves ht, leftBy_replay_of_moves ha]
      exact ih h'
    · simpa only [leftBy, Agent.replay, bind, EStateM.bind, ht, ha] using h

theorem undo (h : Tallied t a) :
    Tallied (leftBy (α := Tally) Agent.undo t) (leftBy (α := UpDown) Agent.undo a) := by
  show Tallied (leftBy Tally.undo t) (leftBy UpDown.undo a)
  unfold leftBy Tally.undo UpDown.undo
  rw [← h.actions]
  obtain ⟨score, actions⟩ := t
  rcases List.eq_nil_or_concat' actions with rfl | ⟨actions, name, rfl⟩
  · exact h
  · have hscore : (a.score.toNat : Int) = score % 2 ^ 32 := h.score
    have hups : ((actions ++ [name]).count "up" : Int) ≤ score := h.ups
    simp only [List.getLast?_concat, List.dropLast_concat]
    by_cases hname : name = "up"
    · subst hname
      rw [List.count_append, List.count_singleton_self] at hups
      rw [if_pos rfl, if_pos rfl]
      refine ⟨rfl, ?_, ?_⟩
      · have hone : (1 : UInt32).toNat = 1 := rfl
        show ((a.score - 1).toNat : Int) = (score - 1) % 2 ^ 32
        rw [UInt32.toNat_sub]
        omega
      · show (actions.count "up" : Int) ≤ score - 1
        omega
    · rw [List.count_append] at hups
      rw [if_neg hname, if_neg hname]
      refine ⟨rfl, hscore, ?_⟩
      show (actions.count "up" : Int) ≤ score
      omega

/-- The calls keep the score of the tally, and the state keeps what 32 bits hold of it. -/
theorem after (h : Tallied t a) (calls : List Call) :
    Tallied (Agent.after t calls) (Agent.after a calls) := by
  induction calls generalizing t a with
  | nil => exact h
  | cons call calls ih =>
    refine ih (t := perform t call) (a := perform a call) ?_
    cases call with
    | apply name =>
      have := h.replay [name]
      rwa [leftBy_replay_singleton, leftBy_replay_singleton] at this
    | undo => exact h.undo
    | clear => exact ⟨rfl, h.score, (Int.natCast_nonneg _).trans h.ups⟩
    | replay names => exact h.replay names

end Tallied

/-- A score that 32 bits hold is the score of the tally, and whoever takes back an `up`
    has a score to take it from. -/
theorem score_eq_tally {t : Tally} {a : UpDown} (h : Tallied t a)
    (hfits : t.score < 2 ^ 32) :
    (a.score.toNat : Int) = t.score ∧ (a.actions.getLast? = some "up" → 0 < a.score) := by
  have hups := h.ups
  have hscore : (a.score.toNat : Int) = t.score := by
    rw [h.score]
    exact Int.emod_eq_of_lt (by omega) hfits
  refine ⟨hscore, fun hlast => ?_⟩
  have hpos : 0 < t.actions.count "up" :=
    List.count_pos_iff.2 (h.actions ▸ List.mem_of_getLast? hlast)
  rw [UInt32.lt_iff_toNat_lt]
  have hzero : (0 : UInt32).toNat = 0 := rfl
  omega

end UpDown

/-- **Histories certify states, and an undo is exact.**  After every sequence of calls, a
    loop nest and an up/down state are what their history makes of the agent that last had
    none, an undo gives the agent as it was before the latest action that stands, and what
    is rejected leaves the agent as it was, with the accepted part of a replay applied.  A
    loop nest has a snapshot for each action, and a score that fits into 32 bits never
    falls below zero. -/
theorem history_certifies :
    (∀ (m n k : UInt32) (calls : List Call), Faithful (LoopNest.matmul m n k) calls ∧
      (after (LoopNest.matmul m n k) calls).saved.length =
        (after (LoopNest.matmul m n k) calls).actions.length) ∧
    (∀ (score : UInt32) (calls : List Call), Faithful (⟨score, []⟩ : UpDown) calls ∧
      ((after (⟨score.toNat, []⟩ : UpDown.Tally) calls).score < 2 ^ 32 →
        ((after (⟨score, []⟩ : UpDown) calls).score.toNat : Int) =
          (after (⟨score.toNat, []⟩ : UpDown.Tally) calls).score ∧
        ((after (⟨score, []⟩ : UpDown) calls).actions.getLast? = some "up" →
          0 < (after (⟨score, []⟩ : UpDown) calls).score))) := by
  refine ⟨fun m n k calls => ⟨faithful rfl calls, LoopNest.length_saved_after rfl calls⟩,
    fun score calls => ⟨faithful rfl calls, fun hfits => ?_⟩⟩
  have hstart : UpDown.Tallied ⟨score.toNat, []⟩ ⟨score, []⟩ :=
    ⟨rfl, (Int.emod_eq_of_lt (Int.natCast_nonneg _)
      (Int.ofNat_lt.2 score.toNat_lt)).symm, Int.natCast_nonneg _⟩
  exact UpDown.score_eq_tally (hstart.after calls) hfits

/-- Raised to the highest score, an up/down state keeps a score to take from. -/
theorem history_certifies_highest :
    let calls : List Call := [.apply "down", .replay ["up", "stay"]]
    (after (⟨4294967294, []⟩ : UpDown.Tally) calls).score < 2 ^ 32 ∧
      (after (⟨4294967294, []⟩ : UpDown) calls).actions.getLast? = some "up" ∧
      0 < (after (⟨4294967294, []⟩ : UpDown) calls).score := by
  intro calls
  obtain ⟨-, h⟩ := history_certifies.2 4294967294 calls
  obtain ⟨-, hlast⟩ := h (by decide)
  exact ⟨by decide, by decide, hlast (by decide)⟩

end ScheduleSearch

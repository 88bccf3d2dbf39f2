/-
  Agents under sequences of calls.

  A user of an agent may apply any action by its name, undo the latest one, forget the
  history, or replay several actions, in any order and whether or not a call is accepted.

  * `Call` is one such call, `perform` the agent that it leaves;
  * `after` is the agent that a sequence of calls leaves;
  * **`after_keeps`**: what an action, an undo and a forgotten history keep holds after
    every sequence.
-/
import ScheduleSearch.Agent

namespace ScheduleSearch.Agent

variable {α : Type} [Agent α]

/-- A call that may change an agent. -/
inductive Call where
  | apply (action : String)
  | undo
  | clear
  | replay (actions : List String)
deriving DecidableEq, Repr

/-- The agent that a change leaves, whether or not it is rejected. -/
def leftBy (change : EStateM AgentError α Unit) (a : α) : α :=
  match change a with
  | .ok _ b | .error _ b => b

def perform (a : α) : Call → α
  | .apply action => leftBy (apply action) a
  | .undo => leftBy undo a
  | .clear => forget a
  | .replay actions => leftBy (replay actions) a

/-- The agent after the calls, the first of them first. -/
def after (a : α) (calls : List Call) : α :=
  calls.foldl perform a

theorem leftBy_replay_cons (action : String) (actions : List String) (a : α) :
    leftBy (replay (action :: actions)) a = leftBy (apply action) a ∨
      leftBy (replay (action :: actions)) a = leftBy (replay actions) (leftBy (apply action) a) := by
  unfold leftBy
  simp only [replay, bind, EStateM.bind]
  cases apply action a with
  | ok _ b => exact .inr rfl
  | error e b => exact .inl rfl

/-- A replay keeps what every action keeps, however far it gets. -/
theorem leftBy_replay_keeps {I : α → Prop} (happly : ∀ action a, I a → I (leftBy (apply action) a))
    (actions : List String) {a : α} (ha : I a) : I (leftBy (replay actions) a) := by
  induction actions generalizing a with
  | nil => exact ha
  | cons action actions ih =>
    rcases leftBy_replay_cons action actions a with h | h
    · rw [h]
      exact happly action a ha
    · rw [h]
      exact ih (happly action a ha)

/-- **Sequences of calls**: what an action, an undo and a forgotten history keep holds
    after all calls. -/
theorem after_keeps {I : α → Prop} (happly : ∀ action a, I a → I (leftBy (apply action) a))
    (hundo : ∀ a, I a → I (leftBy undo a)) (hclear : ∀ a, I a → I (forget a))
    (calls : List Call) {a : α} (ha : I a) : I (after a calls) := by
  induction calls generalizing a with
  | nil => exact ha
  | cons call calls ih =>
    refine ih (a := perform a call) ?_
    cases call with
    | apply action => exact happly action a ha
    | undo => exact hundo a ha
    | clear => exact hclear a ha
    | replay actions => exact leftBy_replay_keeps happly actions ha

end ScheduleSearch.Agent

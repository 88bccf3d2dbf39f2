/-
  Agents: loop-nest states that are changed by named actions.

  An agent is a state together with the actions that led to it.  The search
  never looks inside: it copies agents, reads their dumps, and applies the
  actions that they list.  `replay` applies several actions in order and stops
  at the first that is rejected; those before it stay applied.
-/

namespace ScheduleSearch

inductive AgentError where
  /-- the action is no action of this kind of agent -/
  | unknownAction (action : String)
  /-- the action is not legal in this state -/
  | illegalAction (action detail : String)
  | nothingToUndo
deriving DecidableEq, Repr

def AgentError.message : AgentError → String
  | unknownAction action => s!"unknown action '{action}'"
  | illegalAction action detail => s!"illegal action '{action}': {detail}"
  | nothingToUndo => "no action to undo"

/-- The operations of a kind of agent.  A change that is rejected says what it
    leaves behind, as one that succeeds does. -/
class Agent (α : Type) where
  /-- the actions from the root, the oldest first -/
  history : α → List String
  /-- the same state without a history -/
  forget : α → α
  /-- the state as text: whatever makes two states distinct is in it -/
  dump : α → String
  /-- the actions that are legal in this state -/
  available : α → List String
  apply : String → EStateM AgentError α Unit
  /-- reverts the latest action of the history -/
  undo : EStateM AgentError α Unit
  /-- the state for a reader -/
  describe : α → String := dump

namespace Agent

variable {α : Type} [Agent α]

/-- Applies the actions in order, up to the first that is rejected. -/
def replay : List String → EStateM AgentError α Unit
  | [] => pure ()
  | action :: actions => do
    apply action
    replay actions

/-- What a change makes of a copy of `a`. -/
def changed (a : α) (change : EStateM AgentError α Unit) : Except AgentError α :=
  match change.run a with
  | .ok _ b => .ok b
  | .error err _ => .error err

end Agent

end ScheduleSearch

/-
  Why a search gives no table.  Running out of time is no error.
-/
import ScheduleSearch.Evaluator

namespace ScheduleSearch

inductive SearchError where
  /-- a depth or step count below zero -/
  | negativeDepth (requested : Int)
  /-- a depth or step count above the limit -/
  | depthBudgetExceeded (requested : Int) (maxDepth : Nat)
  | invalidConfig (detail : String)
  /-- the agent rejected an action that the search chose -/
  | agent (err : AgentError)
  /-- the evaluator gave no score, or one that must not enter the graph -/
  | eval (err : EvalError)
  /-- a best path was asked for before any state was recorded -/
  | emptyGraph
  /-- the way back from the best state has no next edge -/
  | brokenBestPath (fingerprint action detail : String)

def SearchError.message : SearchError → String
  | negativeDepth requested => s!"search depth must be >= 0, got {requested}"
  | depthBudgetExceeded requested maxDepth =>
    s!"search depth {requested} exceeds configured max_depth {maxDepth}"
  | invalidConfig detail => s!"invalid search config: {detail}"
  | agent err => s!"agent error during search: {err.message}"
  | eval err => s!"evaluator error during search: {err.message}"
  | emptyGraph => "search graph has no nodes"
  | brokenBestPath fingerprint action detail =>
    s!"best path broken at {fingerprint} (action '{action}'): {detail}"

/-- The message of an error, and those of its causes. -/
def SearchError.messages (e : SearchError) : List String :=
  e.message :: match e with
    | agent err => [err.message]
    | eval err => err.messages
    | _ => []

end ScheduleSearch

/-
  Why a session refuses a command.
-/
import ScheduleSearch.Command.Flag
import ScheduleSearch.Search.Error

namespace ScheduleSearch

inductive SessionError where
  | unknownKey (key : String)
  | command (err : CommandError)
  | search (err : SearchError)
  | agent (err : AgentError)
  | eval (err : EvalError)
  /-- there is no saved agent to go back to -/
  | nothingSaved
  /-- a reply that cannot be written -/
  | serialize (detail : String)
  | invalidConfig (detail : String)

def SessionError.message : SessionError → String
  | unknownKey key => s!"unsupported session parameter '{key}'"
  | command err => s!"bad command value: {err.message}"
  | search err => s!"search failed: {err.message}"
  | agent err => s!"agent error: {err.message}"
  | eval err => s!"evaluator error: {err.message}"
  | nothingSaved => "no saved agent to restore"
  | serialize detail => s!"failed to serialize reply: {detail}"
  | invalidConfig detail => s!"invalid session config: {detail}"

/-- The message of an error, and those of its causes. -/
def SessionError.messages (e : SessionError) : List String :=
  e.message :: match e with
    | command err => [err.message]
    | search err => err.messages
    | agent err => [err.message]
    | eval err => err.messages
    | _ => []

end ScheduleSearch

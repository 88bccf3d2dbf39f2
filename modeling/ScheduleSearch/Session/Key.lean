/-
  The keys of a session's parameters.
-/
import ScheduleSearch.Command.Request
import ScheduleSearch.Session.Error

namespace ScheduleSearch

inductive SessionKey where
  | search (key : SearchKey)
  | availableActions
  | undoAction
  | resetAgent
  | saveState
  | saveRestore
  | loadModel (kind : ModelKind)
  | printLoopTree
deriving DecidableEq, Repr

namespace SessionKey

def all : List SessionKey :=
  [.search .greedy, .search .beam, .search .beamBfs, .search .beamBeam, .search .random,
    .availableActions, .undoAction, .resetAgent, .saveState, .saveRestore, .loadModel .cost,
    .loadModel .policy, .printLoopTree]

def name : SessionKey → String
  | search .greedy => "greedy_search"
  | search .beam => "beam_search"
  | search .beamBfs => "beam_bfs_search"
  | search .beamBeam => "beambeam_search"
  | search .random => "random_search"
  | availableActions => "available_actions"
  | undoAction => "undo_action"
  | resetAgent => "reset_agent"
  | saveState => "save_state"
  | saveRestore => "save_restore"
  | loadModel .cost => "load_cost_model"
  | loadModel .policy => "load_policy_model"
  | printLoopTree => "print_looptree"

def ofName (s : String) : Except SessionError SessionKey :=
  match all.find? (·.name == s) with
  | some key => .ok key
  | none => .error (.unknownKey s)

end SessionKey

end ScheduleSearch

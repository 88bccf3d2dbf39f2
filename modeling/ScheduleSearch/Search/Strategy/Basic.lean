/-
  What the strategies share: the root, the settings of a round, and the end of
  a search.

  Every strategy starts from a copy of the caller's agent without its history,
  builds a fresh graph, grows it by `expand` alone, and returns the best path.
-/
import ScheduleSearch.Search.Expand
import ScheduleSearch.Search.Graph.Dot

namespace ScheduleSearch.SearchM

variable {α ε : Type} [Agent α] [Evaluator ε α]

/-- The settings of a round that ends `budget` from now. -/
def roundParams (s : Setting ε) (width : Nat) (mode : EvalMode) (ranking : Bool) (start : Nat)
    (budget : Duration) : SearchM α ExpandParams := do
  return ⟨width, mode, ranking, start, deadlineAfter (← now s) budget⟩

/-- The count as a depth within the limit. -/
def depthOf (c : CheckedConfig) (requested : Int) : SearchM α Nat :=
  ofExcept (c.checkedDepth requested)

/-- The table of the best path. -/
def bestPath : SearchM α Table := fun r =>
  match r.graph.bestPath with
  | .ok table graph => .ok table { r with graph }
  | .error err graph => .error err { r with graph }

/-- Ends a search: extracts the best path, and reports the graph if asked to. -/
def finish (s : Setting ε) (c : CheckedConfig) (strategy : String) (start : Nat) :
    SearchM α Table := do
  let table ← bestPath
  let g ← graph
  if c.debug then report (.graphDrawn strategy g.dot)
  let time ← elapsed s start
  report (.searchFinished strategy g.nodeCount g.edgeCount table.path.length
    (table.finalReward?.getD 0) time.seconds)
  return table

end ScheduleSearch.SearchM

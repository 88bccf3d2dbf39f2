/-
  Expansion: the one way in which a graph grows.

  `explore` records a state and goes on, along a bounded number of candidate
  actions, to the states below it; a state seen before is gone through again.
  Candidates are ranked by the evaluator or drawn at random.  When the deadline
  has passed, states are still recorded but not gone beyond.
-/
import ScheduleSearch.Search.Run

namespace ScheduleSearch

structure ExpandParams where
  /-- how many candidates of a state are followed -/
  width : Nat
  /-- the oracle that ranks candidates -/
  mode : EvalMode
  /-- rank the candidates; otherwise they are drawn at random -/
  ranking : Bool
  /-- when the search started: node times are measured from here -/
  start : Nat
  /-- when to go no further -/
  deadline : Option Nat

namespace SearchM

variable {α ε : Type} [Agent α] [Evaluator ε α]

def fingerprint (a : α) : Fingerprint :=
  .ofDump (Agent.dump a)

/-- Records a state with its measured score. -/
def visit (s : Setting ε) (p : ExpandParams) (a : α) : SearchM α Unit := do
  let time ← elapsed s p.start
  let score ← measure s a
  changeGraph fun g =>
    ((g.recordDepthTime (Agent.history a).length time.seconds).record (fingerprint a)
      (Agent.history a) score time.seconds).2

/-- The deadline has passed.  Without one, the clock is not read. -/
def expired (s : Setting ε) (p : ExpandParams) : SearchM α Bool :=
  match p.deadline with
  | none => pure false
  | some deadline => return decide (deadline ≤ (← now s))

/-- The actions that are followed from a state. -/
def choose (s : Setting ε) (p : ExpandParams) (a : α) : SearchM α (List String) := do
  if p.ranking then
    return (← rank s a p.mode).take p.width
  else
    modifyGet fun r =>
      let (actions, graph) := r.graph.candidates p.width (Agent.available a)
      (actions, { r with graph })

/-- Records a state, and those that candidate actions reach from it in at most
    so many steps. -/
def explore (s : Setting ε) (p : ExpandParams) : Nat → α → SearchM α Unit
  | 0, a => visit s p a
  | depth + 1, a => do
    visit s p a
    unless ← expired s p do
      (← choose s p a).forM fun action => do
        let child ← stepped a action
        changeGraph fun g => (g.recordEdge ⟨fingerprint a, fingerprint child, action⟩).2
        explore s p depth child

/-- Explores at most `steps` actions from a state, and says which actions lead
    from it to the best state. -/
def expand (s : Setting ε) (p : ExpandParams) (a : α) (steps : Int) :
    SearchM α (List String) := do
  if steps < 0 then throw (.negativeDepth steps)
  else if depthCeiling < steps.toNat then throw (.depthBudgetExceeded steps depthCeiling)
  else
    explore s p steps.toNat a
    return (← graph).remaining (fingerprint a)

end SearchM

end ScheduleSearch

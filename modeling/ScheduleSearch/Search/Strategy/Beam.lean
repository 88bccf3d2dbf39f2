/-
  Beam searches: depth first, level by level, and in two phases.

  * `beamDfs` is one expansion of the full depth;
  * `beamBfs` expands the leaves of the graph by one step in each round, each
    rebuilt by replaying its recorded actions;
  * `beamBeam` runs a ranked depth-first beam, and another from its best state.
-/
import ScheduleSearch.Search.Strategy.Basic

namespace ScheduleSearch

structure BeamParams where
  steps : Int
  width : Nat
  mode : EvalMode
  /-- rank the candidates; otherwise they are drawn at random -/
  ranking : Bool
deriving DecidableEq, Repr

/-- One phase of a beam search in two phases. -/
structure BeamPhase where
  steps : Int
  width : Nat
  mode : EvalMode
deriving DecidableEq, Repr

/-- A phase always ranks. -/
def BeamPhase.params (p : BeamPhase) : BeamParams :=
  ⟨p.steps, p.width, p.mode, true⟩

namespace SearchM

variable {α ε : Type} [Agent α] [Evaluator ε α]

/-- One expansion of the full depth from the root. -/
def beamDfs (s : Setting ε) (c : CheckedConfig) (a : α) (p : BeamParams) : SearchM α Table := do
  let steps ← depthOf c p.steps
  let start ← now s
  report (.beamDfsStarted steps p.width p.mode.name p.ranking)
  freshGraph c.seed
  let settings ← roundParams s p.width p.mode p.ranking start c.timeout
  discard (expand s settings (Agent.forget a) steps)
  finish s c "beam_dfs" start

/-- The rounds of a level-by-level search, with so many of them left. -/
def beamRounds (s : Setting ε) (c : CheckedConfig) (root : α) (p : BeamParams) (start : Nat)
    (steps : Nat) : Nat → List α → SearchM α Unit
  | 0, _ => pure ()
  | left + 1, frontier => do
    let round := steps - (left + 1)
    let settings ← roundParams s p.width p.mode p.ranking start (c.roundBudget steps)
    frontier.forM fun state => discard (expand s settings state 1)
    let next ← (← graph).leaves.mapM fun n => replayed root n.actions
    report (.beamBfsRound round next.length)
    if c.timeout.nanoseconds < (← elapsed s start).nanoseconds then
      report (.beamBfsTimedOut round)
    else beamRounds s c root p start steps left next

/-- Expands level by level. -/
def beamBfs (s : Setting ε) (c : CheckedConfig) (a : α) (p : BeamParams) : SearchM α Table := do
  let steps ← depthOf c p.steps
  let start ← now s
  report (.beamBfsStarted steps p.width p.mode.name p.ranking)
  freshGraph c.seed
  let root := Agent.forget a
  beamRounds s c root p start steps steps [root]
  if (← graph).isEmpty then
    let settings ← roundParams s p.width p.mode p.ranking start (c.roundBudget steps)
    discard (expand s settings root 0)
  finish s c "beam_bfs" start

/-- A ranked depth-first beam, and another from its best state, each with half
    the time. -/
def beamBeam (s : Setting ε) (c : CheckedConfig) (a : α) (first second : BeamPhase) :
    SearchM α Table := do
  let half := c.withTimeout (c.timeout.divide 2)
  let phase ← beamDfs s half a first.params
  let midpoint ← replayed (Agent.forget a) phase.path
  report (.beamPhaseFinished phase.path.length (phase.finalReward?.getD 0))
  let next ← beamDfs s half midpoint second.params
  return phase.concat next (phase.times.getLast?.getD 0)

end SearchM

end ScheduleSearch

/-
  Random search: walks of one random candidate at each state, all from the
  root, until the time is up.  At least one walk runs.
-/
import ScheduleSearch.Search.Strategy.Basic

namespace ScheduleSearch

structure RandomParams where
  /-- the length of a walk -/
  steps : Int
  mode : EvalMode
deriving DecidableEq, Repr

namespace SearchM

variable {α ε : Type} [Agent α] [Evaluator ε α]

/-- A walk after `walks` others, and at most `more` after it; how many there
    were in the end. -/
def randomWalks (s : Setting ε) (c : CheckedConfig) (root : α) (p : RandomParams) (start : Nat)
    (steps : Nat) : Nat → Nat → SearchM α Nat
  | more, walks => do
    let settings ← roundParams s 1 p.mode false start (c.timeout.minus (← elapsed s start))
    discard (expand s settings root steps)
    let time ← elapsed s start
    match more with
    | 0 => pure (walks + 1)
    | more + 1 =>
      if c.timeout.nanoseconds ≤ time.nanoseconds then pure (walks + 1)
      else randomWalks s c root p start steps more (walks + 1)

/-- Walks at random from the root until the time is up. -/
def randomSearch (s : Setting ε) (c : CheckedConfig) (a : α) (p : RandomParams) :
    SearchM α Table := do
  let steps ← depthOf c p.steps
  let start ← now s
  report (.randomStarted steps c.timeout.seconds)
  freshGraph c.seed
  let walks ← randomWalks s c (Agent.forget a) p start steps s.clock.walks 0
  report (.randomWalksFinished walks (← graph).nodeCount)
  finish s c "random" start

end SearchM

end ScheduleSearch

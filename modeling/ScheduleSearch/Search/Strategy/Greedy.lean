/-
  Greedy search: look ahead, commit one action, look again.

  Each round expands the committed state at random, and commits the first
  action towards the best state; a way that fills the steps that are left is
  committed whole.  `greedyWalks` keeps the best of several searches with
  successive seeds, the earliest if several are best.
-/
import ScheduleSearch.Search.Strategy.Basic

namespace ScheduleSearch

structure GreedyParams where
  /-- how many actions are committed -/
  steps : Int
  /-- how deep a round looks -/
  lookahead : Int
  width : Nat
  mode : EvalMode
deriving DecidableEq, Repr

namespace SearchM

variable {α ε : Type} [Agent α] [Evaluator ε α]

/-- The rounds of a greedy search, with so many of them left; the state that is
    committed at the end. -/
def greedyRounds (s : Setting ε) (c : CheckedConfig) (p : GreedyParams) (start : Nat)
    (steps lookahead : Nat) : Nat → α → SearchM α α
  | 0, current => pure current
  | left + 1, current => do
    let round := steps - (left + 1)
    let depth := min lookahead (left + 1)
    let settings ← roundParams s p.width p.mode false start (c.roundBudget steps)
    let suffix ← expand s settings current depth
    report (.greedyRound round depth suffix)
    match suffix with
    | [] => pure current
    | action :: _ =>
      if left + 1 ≤ suffix.length then replayed current (suffix.take (left + 1))
      else
        let next ← stepped current action
        if c.timeout.nanoseconds < (← elapsed s start).nanoseconds then
          report (.greedyTimedOut round)
          pure next
        else greedyRounds s c p start steps lookahead left next

/-- Commits one action after the other towards the best state in sight. -/
def greedySearch (s : Setting ε) (c : CheckedConfig) (a : α) (p : GreedyParams) :
    SearchM α Table := do
  let steps ← depthOf c p.steps
  let lookahead ← depthOf c p.lookahead
  let start ← now s
  report (.greedyStarted steps lookahead p.width p.mode.name)
  freshGraph c.seed
  let current ← greedyRounds s c p start steps lookahead steps (Agent.forget a)
  if (← graph).isEmpty then
    let settings ← roundParams s p.width p.mode false start (c.roundBudget steps)
    discard (expand s settings current 0)
  finish s c "greedy" start

/-- A table without rewards is below every other. -/
def walkReward (t : Table) : Float :=
  t.finalReward?.getD (-1 / 0)

/-- The walks `walk`, …, with `n` of them left, against the best table so
    far. -/
def greedyWalksFrom (s : Setting ε) (c : CheckedConfig) (a : α) (p : GreedyParams) :
    Nat → Nat → Option Table → SearchM α Table
  | 0, _, none => throw .emptyGraph
  | 0, _, some best => pure best
  | n + 1, walk, best => do
    let table ← greedySearch s (c.withSeed (c.seed + walk.toUInt64)) a p
    report (.greedyWalkFinished walk (walkReward table))
    let better := match best with
      | none => true
      | some best => walkReward best < walkReward table
    greedyWalksFrom s c a p n (walk + 1) (if better then some table else best)

/-- The best of several greedy searches, at least one. -/
def greedyWalks (s : Setting ε) (c : CheckedConfig) (a : α) (walks : Nat) (p : GreedyParams) :
    SearchM α Table :=
  greedyWalksFrom s c a p (max walks 1) 0 none

end SearchM

end ScheduleSearch

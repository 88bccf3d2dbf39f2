/-
  Search requests: a strategy with its parameters, and options that are laid
  over the base configuration.
-/
import ScheduleSearch.Search.Strategy.Beam
import ScheduleSearch.Search.Strategy.Greedy
import ScheduleSearch.Search.Strategy.Random

namespace ScheduleSearch

inductive Strategy where
  | greedy (params : GreedyParams)
  /-- the best of several greedy searches -/
  | greedyWalks (walks : Nat) (params : GreedyParams)
  | beamDfs (params : BeamParams)
  | beamBfs (params : BeamParams)
  | beamBeam (first second : BeamPhase)
  | random (params : RandomParams)
deriving DecidableEq, Repr

def Strategy.name : Strategy → String
  | greedy _ => "greedy"
  | greedyWalks .. => "greedy_walks"
  | beamDfs _ => "beam_dfs"
  | beamBfs _ => "beam_bfs"
  | beamBeam .. => "beam_beam"
  | random _ => "random"

/-- What a request changes in the base configuration. -/
structure SearchOptions where
  timeout : Option Duration := none
  seed : Option UInt64 := none
  debug : Bool := false
deriving DecidableEq, Repr

structure SearchRequest where
  strategy : Strategy
  options : SearchOptions := {}
deriving DecidableEq, Repr

/-- The base configuration under the options of a request. -/
def SearchRequest.effectiveConfig (r : SearchRequest) (base : SearchConfig) : SearchConfig where
  timeout := r.options.timeout.getD base.timeout
  seed := r.options.seed.getD base.seed
  maxDepth := base.maxDepth
  debug := base.debug || r.options.debug

namespace SearchM

variable {α ε : Type} [Agent α] [Evaluator ε α]

def runStrategy (s : Setting ε) (c : CheckedConfig) (a : α) : Strategy → SearchM α Table
  | .greedy params => greedySearch s c a params
  | .greedyWalks walks params => greedyWalks s c a walks params
  | .beamDfs params => beamDfs s c a params
  | .beamBfs params => beamBfs s c a params
  | .beamBeam first second => beamBeam s c a first second
  | .random params => randomSearch s c a params

def runRequest (s : Setting ε) (a : α) (r : SearchRequest) (base : SearchConfig) :
    SearchM α Table := do
  let c := r.effectiveConfig base
  report (.searchRequested r.strategy.name c.timeout.seconds c.seed c.debug)
  runStrategy s (← ofExcept c.check) a r.strategy

end SearchM

/-- The table of a request, with the trace it leaves after `trace`. -/
def search {α ε : Type} [Agent α] [Evaluator ε α] (s : Setting ε) (a : α) (r : SearchRequest)
    (base : SearchConfig) (trace : Trace α) : Except SearchError Table × Trace α :=
  match (SearchM.runRequest s a r base).run ⟨.empty base.seed, trace⟩ with
  | .ok table run => (.ok table, run.trace)
  | .error err run => (.error err, run.trace)

end ScheduleSearch

/-
  Events: what a search, a session or an evaluator reports while it runs.

  Each event has a level, a fixed message, and named fields.  Events never
  influence what is computed.
-/
import ScheduleSearch.Text.Quoted

namespace ScheduleSearch

inductive Level where
  | debug
  | info
  | warn
deriving DecidableEq, Repr

inductive FieldValue where
  | text (s : String)
  | count (n : Nat)
  | number (x : Float)
  | flag (b : Bool)

inductive Event where
  | searchRequested (strategy : String) (timeout : Float) (seed : UInt64) (debug : Bool)
  | greedyStarted (steps lookahead width : Nat) (mode : String)
  | greedyRound (round depth : Nat) (suffix : List String)
  | greedyTimedOut (round : Nat)
  | greedyWalkFinished (walk : Nat) (reward : Float)
  | beamDfsStarted (steps width : Nat) (mode : String) (ranking : Bool)
  | beamBfsStarted (steps width : Nat) (mode : String) (ranking : Bool)
  | beamBfsRound (round frontier : Nat)
  | beamBfsTimedOut (round : Nat)
  | beamPhaseFinished (steps : Nat) (reward : Float)
  | randomStarted (steps : Nat) (timeout : Float)
  | randomWalksFinished (walks nodes : Nat)
  | graphDrawn (strategy dot : String)
  | searchFinished (strategy : String) (nodes edges steps : Nat) (reward elapsed : Float)
  | stepTaken (action : String) (reward : Float) (committed : Bool)
  | parameterReceived (key value : String)
  | loopTree (actions : List String) (tree : String)
  | modelUpdated (kind path : String) (loaded : Bool) (digest : String)

namespace Event

def level : Event → Level
  | greedyRound .. | greedyWalkFinished .. | beamBfsRound .. | beamPhaseFinished ..
  | randomWalksFinished .. | graphDrawn .. | stepTaken .. => .debug
  | greedyTimedOut .. | beamBfsTimedOut .. => .warn
  | searchRequested .. | greedyStarted .. | beamDfsStarted .. | beamBfsStarted ..
  | randomStarted .. | searchFinished .. | parameterReceived .. | loopTree ..
  | modelUpdated .. => .info

def message : Event → String
  | searchRequested .. => "running search"
  | greedyStarted .. => "greedy search started"
  | greedyRound .. => "greedy round"
  | greedyTimedOut .. => "greedy search timed out"
  | greedyWalkFinished .. => "greedy walk finished"
  | beamDfsStarted .. => "beam dfs search started"
  | beamBfsStarted .. => "beam bfs search started"
  | beamBfsRound .. => "beam bfs round"
  | beamBfsTimedOut .. => "beam bfs search timed out"
  | beamPhaseFinished .. => "beam beam first phase done"
  | randomStarted .. => "random search started"
  | randomWalksFinished .. => "random search walks done"
  | graphDrawn .. => "search graph"
  | searchFinished .. => "search finished"
  | stepTaken .. => "session step"
  | parameterReceived .. => "session parameter"
  | loopTree .. => "loop tree"
  | modelUpdated .. => "model updated"

def fields : Event → List (String × FieldValue)
  | searchRequested strategy timeout seed debug =>
    [("strategy", .text strategy), ("timeout_s", .number timeout), ("seed", .count seed.toNat),
      ("debug", .flag debug)]
  | greedyStarted steps lookahead width mode =>
    [("steps", .count steps), ("lookahead", .count lookahead), ("width", .count width),
      ("eval", .text mode)]
  | greedyRound round depth suffix =>
    [("round", .count round), ("depth", .count depth), ("suffix", .text (Text.quoteList suffix))]
  | greedyTimedOut round | beamBfsTimedOut round => [("round", .count round)]
  | greedyWalkFinished walk reward => [("walk", .count walk), ("reward", .number reward)]
  | beamDfsStarted steps width mode ranking | beamBfsStarted steps width mode ranking =>
    [("steps", .count steps), ("width", .count width), ("eval", .text mode),
      ("ranking", .flag ranking)]
  | beamBfsRound round frontier => [("round", .count round), ("frontier", .count frontier)]
  | beamPhaseFinished steps reward => [("steps", .count steps), ("gflops", .number reward)]
  | randomStarted steps timeout => [("steps", .count steps), ("timeout_s", .number timeout)]
  | randomWalksFinished walks nodes => [("walks", .count walks), ("nodes", .count nodes)]
  | graphDrawn strategy dot => [("strategy", .text strategy), ("dot", .text dot)]
  | searchFinished strategy nodes edges steps reward elapsed =>
    [("strategy", .text strategy), ("nodes", .count nodes), ("edges", .count edges),
      ("steps", .count steps), ("best_gflops", .number reward), ("elapsed_s", .number elapsed)]
  | stepTaken action reward committed =>
    [("action", .text action), ("gflops", .number reward), ("committed", .flag committed)]
  | parameterReceived key value => [("key", .text key), ("value", .text value)]
  | loopTree actions tree =>
    [("actions", .text (Text.quoteList actions)), ("looptree", .text tree)]
  | modelUpdated kind path loaded digest =>
    [("kind", .text kind), ("path", .text path), ("loaded", .flag loaded),
      ("digest", .text digest)]

end Event

end ScheduleSearch

/-
  What a search works on.

  A `Trace` is what a search leaves behind besides its answer: the scores it
  asked for, the number of rankings, the events it reported, and how often it
  read the clock.  A `Run` is a trace with the graph that is being built, and
  `SearchM` are the computations on it; an error keeps the run as it stands.
-/
import ScheduleSearch.Search.Config
import ScheduleSearch.Search.Graph.BestPath

namespace ScheduleSearch

/-- A score that was asked for. -/
structure Scored (α : Type) where
  state : α
  mode : EvalMode
  answer : Except EvalError Float

/-- What was asked, reported and read so far, the oldest first. -/
structure Trace (α : Type) where
  scored : Array (Scored α)
  rankings : Nat
  journal : Array Event
  readings : Nat

namespace Trace

variable {α ε : Type}

def empty : Trace α := ⟨#[], 0, #[], 0⟩

def report (t : Trace α) (e : Event) : Trace α :=
  { t with journal := t.journal.push e }

/-- Asks for the score of a state. -/
def score [Evaluator ε α] (t : Trace α) (evaluator : ε) (a : α) (mode : EvalMode) :
    Except EvalError Float × Trace α :=
  let answer := Evaluator.score evaluator t.scored.size a mode
  (answer, { t with scored := t.scored.push ⟨a, mode, answer⟩ })

/-- Asks for the ranked actions of a state. -/
def rank [Evaluator ε α] (t : Trace α) (evaluator : ε) (a : α) (mode : EvalMode) :
    Except EvalError (List RankedAction) × Trace α :=
  (Evaluator.rank evaluator t.scored.size a mode, { t with rankings := t.rankings + 1 })

/-- The next reading of a clock. -/
def read (t : Trace α) (clock : Clock) : Nat × Trace α :=
  (clock.reading t.readings, { t with readings := t.readings + 1 })

end Trace

structure Run (α : Type) where
  graph : Graph
  trace : Trace α

abbrev SearchM (α : Type) := EStateM SearchError (Run α)

/-- Whom a search asks: an evaluator and a clock. -/
structure Setting (ε : Type) where
  evaluator : ε
  clock : Clock

namespace SearchM

variable {α ε : Type}

/-- The answer of an agent or an evaluator, or its error. -/
def ofExcept {β : Type} : Except SearchError β → SearchM α β
  | .ok x => pure x
  | .error err => throw err

def report (e : Event) : SearchM α Unit :=
  modify fun r => { r with trace := r.trace.report e }

def graph : SearchM α Graph :=
  return (← get).graph

def changeGraph (f : Graph → Graph) : SearchM α Unit :=
  modify fun r => { r with graph := f r.graph }

def freshGraph (seed : UInt64) : SearchM α Unit :=
  changeGraph fun _ => .empty seed

def now (s : Setting ε) : SearchM α Nat :=
  modifyGet fun r =>
    let (t, trace) := r.trace.read s.clock
    (t, { r with trace })

/-- The time since `start`. -/
def elapsed (s : Setting ε) (start : Nat) : SearchM α Duration := do
  return ⟨(← now s) - start⟩

/-- The measured score of a state, which must be finite. -/
def measure [Evaluator ε α] (s : Setting ε) (a : α) : SearchM α Float := do
  let answer ← modifyGet fun (r : Run α) =>
    let (answer, trace) := r.trace.score s.evaluator a .loopNest
    (answer, { r with trace })
  match answer with
  | .error err => throw (.eval err)
  | .ok score => if score.isFinite then pure score else throw (.eval (.nonFiniteScore score))

/-- The actions of a state under a mode, the best first. -/
def rank [Evaluator ε α] (s : Setting ε) (a : α) (mode : EvalMode) :
    SearchM α (List String) := do
  let answer ← modifyGet fun (r : Run α) =>
    let (answer, trace) := r.trace.rank s.evaluator a mode
    (answer, { r with trace })
  match answer with
  | .error err => throw (.eval err)
  | .ok ranked => pure (ranked.map (·.action))

def stepped [Agent α] (a : α) (action : String) : SearchM α α :=
  ofExcept ((Agent.changed a (Agent.apply action)).mapError .agent)

def replayed [Agent α] (a : α) (actions : List String) : SearchM α α :=
  ofExcept ((Agent.changed a (Agent.replay actions)).mapError .agent)

end SearchM

end ScheduleSearch

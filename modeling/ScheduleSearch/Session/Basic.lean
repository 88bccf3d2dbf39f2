/-
  Sessions: an agent that is looked at, changed and searched from by commands.

  A session holds the current agent, the one it was built with, at most one
  saved agent, and the evaluator.  `apply` does one action and keeps it while
  the session saves its state; `handle` answers a parameter, which is a key with
  a value.  A command that is refused says what it leaves behind.
-/
import ScheduleSearch.Search.Wire
import ScheduleSearch.Session.Key

namespace ScheduleSearch

/-- The defaults of a session; the flags of a command go before them. -/
structure SessionConfig where
  timeout : Duration := .ofParts 60 0
  seed : UInt64 := 0
  maxDepth : Nat := 256
  /-- keep the actions that are applied; otherwise they are only scored -/
  saveState : Bool := true
deriving DecidableEq, Repr

namespace SessionConfig

/-- The configuration of a search in the session. -/
def search (c : SessionConfig) : SearchConfig where
  timeout := c.timeout
  seed := c.seed
  maxDepth := c.maxDepth
  debug := false

/-- The depth limit is in range. -/
def validate (c : SessionConfig) : Except SessionError Unit :=
  match c.search.check with
  | .ok _ => .ok ()
  | .error err => .error (.invalidConfig err.message)

end SessionConfig

structure Session (ε α : Type) where
  agent : α
  /-- the agent the session was built with -/
  initial : α
  saved : Option α
  evaluator : ε
  config : SessionConfig
  trace : Trace α

/-- The score of the state after an action, and whether the action was kept. -/
structure StepOutcome where
  score : Float
  committed : Bool

/-- What a session uses from outside: a clock and files. -/
structure Surroundings where
  clock : Clock
  disk : Disk

namespace Session

variable {ε α : Type}

def start (agent : α) (evaluator : ε) (config : SessionConfig) :
    Except SessionError (Session ε α) := do
  config.validate
  return ⟨agent, agent, none, evaluator, config, .empty⟩

def report (s : Session ε α) (e : Event) : Session ε α :=
  { s with trace := s.trace.report e }

/-- The reply of commands that only acknowledge. -/
def succeeded : String := "Succeeded"

variable [Agent α] [Evaluator ε α]

/-- Does one action, and keeps it while the session saves its state. -/
def apply (action : String) : EStateM SessionError (Session ε α) StepOutcome := fun s =>
  match Agent.changed s.agent (Agent.apply action) with
  | .error err => .error (.agent err) s
  | .ok next =>
    let (answer, trace) := s.trace.score s.evaluator next .loopNest
    let s := { s with trace }
    match answer with
    | .error err => .error (.eval err) s
    | .ok score =>
      let committed := s.config.saveState
      let s := s.report (.stepTaken action score committed)
      .ok ⟨score, committed⟩ (if committed then { s with agent := next } else s)

/-- The table of a search from the current agent, which stays as it is. -/
def search (env : Surroundings) (key : SearchKey) (value : String) :
    EStateM SessionError (Session ε α) String := fun s =>
  match Command.parse key value with
  | .error err => .error (.command err) s
  | .ok request =>
    let (answer, trace) :=
      ScheduleSearch.search ⟨s.evaluator, env.clock⟩ s.agent request s.config.search s.trace
    let s := { s with trace }
    match answer with
    | .error err => .error (.search err) s
    | .ok table => .ok table.toJson s

/-- Drops the latest action of the current agent. -/
def undo : EStateM SessionError (Session ε α) String := fun s =>
  match Agent.undo s.agent with
  | .ok _ agent => .ok "" { s with agent }
  | .error err agent => .error (.agent err) { s with agent }

/-- Saves the current agent, or goes back to the saved one. -/
def saveRestore (value : String) : EStateM SessionError (Session ε α) String := fun s =>
  if value = "0" then .ok succeeded { s with saved := some s.agent }
  else
    match s.saved with
    | none => .error .nothingSaved s
    | some agent => .ok succeeded { s with agent }

/-- Loads a model into the evaluator. -/
def loadModel (env : Surroundings) (kind : ModelKind) (path : String) :
    EStateM SessionError (Session ε α) String := fun s =>
  match Evaluator.load α env.disk kind path s.evaluator with
  | .ok events evaluator => .ok "" (events.foldl report { s with evaluator })
  | .error err evaluator => .error (.eval err) { s with evaluator }

def answer (env : Surroundings) (value : String) :
    SessionKey → EStateM SessionError (Session ε α) String
  | .search key => search env key value
  | .availableActions => fun s =>
    .ok (Json.writeArray ((Agent.available s.agent).map Json.writeText)) s
  | .undoAction => undo
  | .resetAgent => fun s => .ok "" { s with agent := s.initial }
  | .saveState => fun s =>
    .ok succeeded { s with config := { s.config with saveState := value != "0" } }
  | .saveRestore => saveRestore value
  | .loadModel kind => loadModel env kind value
  | .printLoopTree => fun s =>
    .ok "" (s.report (.loopTree (Agent.history s.agent) (Agent.describe s.agent)))

def handle (env : Surroundings) (key value : String) :
    EStateM SessionError (Session ε α) String := fun s =>
  match SessionKey.ofName key with
  | .error err => .error err s
  | .ok key => answer env value key (s.report (.parameterReceived key.name value))

end Session

end ScheduleSearch

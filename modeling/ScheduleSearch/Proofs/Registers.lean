/-
  A session as a machine with five registers.

  Commands read and write the current agent, the agent the session was built with, the
  saved agent, the evaluator and the configuration, whose flag says whether steps are kept.
  `Step` is what a command does to these registers and to nothing else, told by its key
  alone; what a search explores, what a state scores and what is reported play no part in
  it.

  * `Message` is a step or a parameter, `respond` the answer to it, `serve` the session after
    a series of calls, in surroundings that may differ from call to call;
  * `Atomic` agents and evaluators leave nothing behind when they refuse an undo or a model;
  * `Simulates`: a session answers as the machine does, and a call that is refused leaves
    the registers as they were;
  * **`session_simulates`**: a session does so after every series of calls, and its saved
    agent is the one that the latest save has put there.
-/
import ScheduleSearch.Proofs.World
import ScheduleSearch.Session.Basic
import ScheduleSearch.World.Analytic

namespace ScheduleSearch

open Agent

/-- Undoing and loading a model are all or nothing. -/
structure Atomic (ε α : Type) [Agent α] [Evaluator ε α] : Prop where
  undo {a b : α} {err : AgentError} : Agent.undo a = .error err b → b = a
  load {disk : Disk} {kind : ModelKind} {path : String} {ev ev' : ε} {err : EvalError} :
    Evaluator.load α disk kind path ev = .error err ev' → ev' = ev

/-- What a session remembers from call to call. -/
structure Registers (ε α : Type) where
  agent : α
  initial : α
  saved : Option α
  evaluator : ε
  config : SessionConfig

namespace Session

/-- What a session is asked for: one action, or a key with its value. -/
inductive Message where
  | apply (action : String)
  | parameter (key value : String)
deriving DecidableEq, Repr

/-- The save of the current agent. -/
def Message.save : Message := .parameter "save_restore" "0"

/-- The keys of the searches. -/
def searchKeys : List String :=
  ["greedy_search", "beam_search", "beam_bfs_search", "beambeam_search", "random_search"]

/-- The keys that only tell something about the current agent. -/
def tellingKeys : List String :=
  ["available_actions", "print_looptree"]

/-- The key that loads a model. -/
def modelKey : ModelKind → String
  | .cost => "load_cost_model"
  | .policy => "load_policy_model"

inductive Reply where
  | step (outcome : StepOutcome)
  | text (reply : String)

variable {ε α : Type}

def registers (s : Session ε α) : Registers ε α :=
  ⟨s.agent, s.initial, s.saved, s.evaluator, s.config⟩

variable [Agent α] [Evaluator ε α]

def respond (env : Surroundings) : Message → EStateM SessionError (Session ε α) Reply
  | .apply action => .step <$> apply action
  | .parameter key value => .text <$> handle env key value

/-- The session after an answer, whichever it is. -/
def answered (s : Session ε α) (request : Surroundings × Message) : Session ε α :=
  match respond request.1 request.2 s with
  | .ok _ s' | .error _ s' => s'

/-- The session after the calls, the first of them first. -/
def serve (s : Session ε α) (requests : List (Surroundings × Message)) : Session ε α :=
  requests.foldl answered s

end Session

open Session

namespace Registers

variable {ε α : Type} [Agent α] [Evaluator ε α]

/-- What a call does to the registers when it is answered. -/
inductive Step (env : Surroundings) (r : Registers ε α) : Message → Registers ε α → Prop
  | keep {action : String} {a : α} : r.config.saveState = true → Moves r.agent action a →
      Step env r (.apply action) { r with agent := a }
  | score {action : String} {a : α} : r.config.saveState = false → Moves r.agent action a →
      Step env r (.apply action) r
  | search {key value : String} : key ∈ searchKeys → Step env r (.parameter key value) r
  | tell {key value : String} : key ∈ tellingKeys → Step env r (.parameter key value) r
  | undo {value : String} {a : α} : Agent.undo r.agent = .ok () a →
      Step env r (.parameter "undo_action" value) { r with agent := a }
  | reset {value : String} :
      Step env r (.parameter "reset_agent" value) { r with agent := r.initial }
  | flag {value : String} : Step env r (.parameter "save_state" value)
      { r with config := { r.config with saveState := value != "0" } }
  | save : Step env r .save { r with saved := some r.agent }
  | restore {value : String} {a : α} : value ≠ "0" → r.saved = some a →
      Step env r (.parameter "save_restore" value) { r with agent := a }
  | load {kind : ModelKind} {path : String} {events : List Event} {ev : ε} :
      Evaluator.load α env.disk kind path r.evaluator = .ok events ev →
      Step env r (.parameter (modelKey kind) path) { r with evaluator := ev }

namespace Step

variable {env : Surroundings} {r r' : Registers ε α} {call : Message}

/-- No step changes the agent that the session was built with. -/
theorem initial_eq (h : r.Step env call r') : r'.initial = r.initial := by
  cases h <;> rfl

/-- Only a save changes the saved agent. -/
theorem saved_eq (h : r.Step env call r') (hcall : call ≠ .save) : r'.saved = r.saved := by
  cases h with
  | save => exact absurd rfl hcall
  | keep _ _ | score _ _ | search _ | tell _ | undo _ | reset | flag | restore _ _ | load _ => rfl

end Step

end Registers

namespace Session

variable {ε α : Type} [Agent α] [Evaluator ε α]

/-- The calls that score states, and may fail for that. -/
def Message.scores : Message → Bool
  | .apply _ => true
  | .parameter key _ => key ∈ searchKeys

/-- What the search from the current agent comes to, once the parameter is reported. -/
def find (env : Surroundings) (key : SearchKey) (value : String) (request : SearchRequest)
    (s : Session ε α) : Except SearchError Table × Trace α :=
  ScheduleSearch.search ⟨s.evaluator, env.clock⟩ s.agent request s.config.search
    (s.report (.parameterReceived (SessionKey.search key).name value)).trace

/-- A session answers a call as the machine does. -/
structure Simulates (env : Surroundings) (s : Session ε α) (call : Message) : Prop where
  registers_of_error {err : SessionError} {s' : Session ε α} :
    respond env call s = .error err s' → s'.registers = s.registers
  step_of_ok {reply : Reply} {s' : Session ε α} :
    respond env call s = .ok reply s' → s.registers.Step env call s'.registers
  committed {outcome : StepOutcome} {s' : Session ε α} :
    respond env call s = .ok (.step outcome) s' → outcome.committed = s.registers.config.saveState
  /-- nothing but a score stands in the way of a step of the machine -/
  ok_of_step {r : Registers ε α} : call.scores = false → s.registers.Step env call r →
    ∃ reply s', respond env call s = .ok reply s' ∧ s'.registers = r
  /-- an action that is accepted and whose state has a score is answered, and is kept exactly
      while the flag is on -/
  apply_of_score {action : String} {a : α} {score : Float} : call = .apply action →
    Moves s.agent action a →
    Evaluator.score s.evaluator s.trace.scored.size a .loopNest = .ok score →
    ∃ s', respond env call s = .ok (.step ⟨score, s.registers.config.saveState⟩) s' ∧
      s'.registers = if s.registers.config.saveState then { s.registers with agent := a }
        else s.registers
  /-- a search that is asked for and finds a table is answered with it -/
  search_of_table {key : SearchKey} {value : String} {request : SearchRequest} {table : Table} :
    call = .parameter (SessionKey.search key).name value → Command.parse key value = .ok request →
    (s.find env key value request).1 = .ok table →
    ∃ s', respond env call s = .ok (.text table.toJson) s' ∧ s'.registers = s.registers
  nothing_saved {value : String} : call = .parameter "save_restore" value → value ≠ "0" →
    s.registers.saved = none → ∃ s', respond env call s = .error .nothingSaved s'

/-! ## Single commands -/

section

variable {ε α : Type} {env : Surroundings} {s s' : Session ε α} {value : String}

theorem map_eq_ok {β γ : Type} {f : β → γ} {x : EStateM SessionError (Session ε α) β}
    {c : γ} : (f <$> x) s = .ok c s' ↔ ∃ b, x s = .ok b s' ∧ f b = c := by
  simp only [Functor.map, EStateM.map]
  constructor
  · intro h
    cases hx : x s with
    | ok b t =>
      rw [hx] at h
      obtain ⟨rfl, rfl⟩ : f b = c ∧ t = s' := by simpa using h
      exact ⟨b, rfl, rfl⟩
    | error e t =>
      rw [hx] at h
      cases h
  · rintro ⟨b, hx, rfl⟩
    rw [hx]

theorem map_eq_error {β γ : Type} {f : β → γ} {x : EStateM SessionError (Session ε α) β}
    {err : SessionError} : (f <$> x) s = .error err s' ↔ x s = .error err s' := by
  simp only [Functor.map, EStateM.map]
  cases x s <;> simp

/-- The events of a loaded model are only reported. -/
theorem registers_reports (events : List Event) (s : Session ε α) :
    (events.foldl report s).registers = s.registers := by
  induction events generalizing s with
  | nil => rfl
  | cons e events ih => exact ih (s.report e)

theorem undo_eq_ok [Agent α] {a : α} (h : Agent.undo s.agent = .ok () a) :
    (Session.undo : EStateM SessionError (Session ε α) String) s =
      .ok "" { s with agent := a } := by
  unfold Session.undo
  rw [h]

theorem saveRestore_of_saved {a : α} (hvalue : value ≠ "0") (h : s.saved = some a) :
    saveRestore value s = .ok succeeded { s with agent := a } := by
  simp only [saveRestore, if_neg hvalue, h]

theorem saveRestore_of_nothing (hvalue : value ≠ "0") (h : s.saved = none) :
    saveRestore value s = .error .nothingSaved s := by
  simp only [saveRestore, if_neg hvalue, h]

theorem loadModel_eq_ok [Evaluator ε α] {kind : ModelKind} {events : List Event} {ev : ε}
    (h : Evaluator.load α env.disk kind value s.evaluator = .ok events ev) :
    loadModel env kind value s = .ok "" (events.foldl report { s with evaluator := ev }) := by
  simp only [loadModel, h]

end

/-! ## One call -/

variable {env : Surroundings} {s s' : Session ε α} {action key value : String}
  {err : SessionError}

theorem ofName_eq_ok {k : SessionKey} : SessionKey.ofName key = .ok k ↔ k.name = key := by
  constructor
  · intro h
    unfold SessionKey.ofName at h
    split at h
    · next hfind => exact Except.ok.inj h ▸ by simpa using List.find?_some hfind
    · cases h
  · rintro rfl
    rcases k with (_ | _ | _ | _ | _) | _ | _ | _ | _ | _ | (_ | _) | _ <;> rfl

theorem handle_of_name {k : SessionKey} (h : k.name = key) :
    handle env key value s = answer env value k (s.report (.parameterReceived key value)) := by
  simp only [handle, ofName_eq_ok.2 h, h]

/-- A parameter is refused for its key, or does what the key says once it is reported. -/
theorem handle_cases (env : Surroundings) (key value : String) (s : Session ε α) :
    (∃ err, handle env key value s = .error err s) ∨ ∃ k, k.name = key ∧
      handle env key value s = answer env value k (s.report (.parameterReceived key value)) := by
  cases hkey : SessionKey.ofName key with
  | error err => exact .inl ⟨err, by simp only [handle, hkey]⟩
  | ok k =>
    have hk := ofName_eq_ok.1 hkey
    exact .inr ⟨k, hk, handle_of_name hk⟩

/-- An action is refused, or done on the current agent or on a copy of it. -/
theorem apply_cases (action : String) (s : Session ε α) :
    (∃ err s', apply action s = .error err s' ∧ s'.registers = s.registers) ∨
      ∃ outcome s' a, apply action s = .ok outcome s' ∧ Moves s.agent action a ∧
        outcome.committed = s.registers.config.saveState ∧
        s'.registers = if s.registers.config.saveState then { s.registers with agent := a }
          else s.registers := by
  unfold apply
  split
  · exact .inl ⟨_, _, rfl, rfl⟩
  · next a hmove =>
    dsimp only
    split
    · exact .inl ⟨_, _, rfl, rfl⟩
    · refine .inr ⟨_, _, a, rfl, hmove, rfl, ?_⟩
      show registers (if s.config.saveState then _ else _) = if s.config.saveState then _ else _
      split <;> rfl

/-- An action that is accepted and whose state has a score is kept while the flag is on. -/
theorem apply_of_score {a : α} {score : Float} (hmove : Moves s.agent action a)
    (hscore : Evaluator.score s.evaluator s.trace.scored.size a .loopNest = .ok score) :
    ∃ s', apply action s = .ok ⟨score, s.registers.config.saveState⟩ s' ∧
      s'.registers = if s.registers.config.saveState then { s.registers with agent := a }
        else s.registers := by
  have hchanged : Agent.changed s.agent (Agent.apply action) = .ok a := hmove
  simp only [apply, hchanged, Trace.score, hscore]
  refine ⟨_, rfl, ?_⟩
  show registers (if s.config.saveState then _ else _) = if s.config.saveState then _ else _
  split <;> rfl

/-- A search that finds a table is answered with it. -/
theorem handle_of_table {k : SearchKey} {request : SearchRequest} {table : Table}
    (hparse : Command.parse k value = .ok request)
    (hfind : (s.find env k value request).1 = .ok table) :
    ∃ s', handle env (SessionKey.search k).name value s = .ok table.toJson s' ∧
      s'.registers = s.registers := by
  obtain ⟨trace, hfound⟩ : ∃ trace, s.find env k value request = (.ok table, trace) :=
    ⟨_, Prod.ext hfind rfl⟩
  unfold find at hfound
  refine ⟨{ s.report (.parameterReceived (SessionKey.search k).name value) with trace }, ?_, rfl⟩
  rw [handle_of_name rfl]
  simp only [answer, search, hparse, report] at hfound ⊢
  rw [hfound]

/-- A search leaves the registers alone, whether or not it finds a table. -/
theorem registers_search (env : Surroundings) (key : SearchKey) (value : String)
    (s : Session ε α) :
    (∃ err s', search env key value s = .error err s' ∧ s'.registers = s.registers) ∨
      ∃ table s', search env key value s = .ok table s' ∧ s'.registers = s.registers := by
  unfold search
  split
  · exact .inl ⟨_, _, rfl, rfl⟩
  · dsimp only
    split
    · exact .inl ⟨_, _, rfl, rfl⟩
    · exact .inr ⟨_, _, rfl, rfl⟩

theorem search_name_mem (key : SearchKey) : (SessionKey.search key).name ∈ searchKeys := by
  cases key <;> decide

theorem loadModel_name (kind : ModelKind) :
    (SessionKey.loadModel kind).name = modelKey kind := by
  cases kind <;> rfl

/-- A command that is refused has changed no register. -/
theorem registers_of_answer_error (h : Atomic ε α) {k : SessionKey}
    (herr : answer env value k s = .error err s') : s'.registers = s.registers := by
  cases k with
  | search key =>
    rcases registers_search env key value s with ⟨_, _, hs, hregisters⟩ | ⟨_, _, hs, -⟩
    · cases hs.symm.trans herr
      exact hregisters
    · cases hs.symm.trans herr
  | undoAction =>
    simp only [answer, Session.undo] at herr
    split at herr
    · cases herr
    · next hundo =>
      cases herr
      rw [h.undo hundo]
  | saveRestore =>
    simp only [answer, saveRestore] at herr
    split at herr
    · cases herr
    · split at herr
      · cases herr
        rfl
      · cases herr
  | loadModel kind =>
    simp only [answer, loadModel] at herr
    split at herr
    · cases herr
    · next hload =>
      cases herr
      rw [h.load hload]
  | availableActions | resetAgent | saveState | printLoopTree => cases herr

/-- A command that is answered has made a step of the machine. -/
theorem step_of_answer_ok {k : SessionKey} {reply : String}
    (hok : answer env value k s = .ok reply s') :
    s.registers.Step env (.parameter k.name value) s'.registers := by
  cases k with
  | search key =>
    rcases registers_search env key value s with ⟨_, _, hs, -⟩ | ⟨_, _, hs, hregisters⟩
    · cases hs.symm.trans hok
    · cases hs.symm.trans hok
      rw [hregisters]
      exact .search (search_name_mem key)
  | availableActions =>
    cases hok
    exact .tell (by decide)
  | undoAction =>
    simp only [answer, Session.undo] at hok
    split at hok
    · next hundo =>
      cases hok
      exact .undo hundo
    · cases hok
  | resetAgent =>
    cases hok
    exact .reset
  | saveState =>
    cases hok
    exact .flag
  | saveRestore =>
    simp only [answer, saveRestore] at hok
    split at hok
    · next hvalue =>
      cases hok
      exact hvalue ▸ .save
    · next hvalue =>
      split at hok
      · cases hok
      · next hsaved =>
        cases hok
        exact .restore hvalue hsaved
  | loadModel kind =>
    simp only [answer, loadModel] at hok
    split at hok
    · next hload =>
      cases hok
      rw [registers_reports]
      rw [loadModel_name]
      exact .load hload
    · cases hok
  | printLoopTree =>
    cases hok
    exact .tell (by decide)

/-- A parameter other than a search is answered wherever the machine has a step. -/
theorem handle_of_step {r : Registers ε α} (hkey : key ∉ searchKeys)
    (h : s.registers.Step env (.parameter key value) r) :
    ∃ t s', handle env key value s = .ok t s' ∧ s'.registers = r := by
  generalize hcall : Message.parameter key value = call at h
  cases h with
  | keep _ _ | score _ _ => cases hcall
  | search hsearch =>
    cases hcall
    exact absurd hsearch hkey
  | tell htell =>
    cases hcall
    simp only [tellingKeys, List.mem_cons, List.not_mem_nil, or_false] at htell
    rcases htell with rfl | rfl
    · exact ⟨_, _, handle_of_name (k := .availableActions) rfl, rfl⟩
    · exact ⟨_, _, handle_of_name (k := .printLoopTree) rfl, rfl⟩
  | undo hundo =>
    cases hcall
    exact ⟨_, _, (handle_of_name (k := .undoAction) rfl).trans (undo_eq_ok hundo), rfl⟩
  | reset =>
    cases hcall
    exact ⟨_, _, handle_of_name (k := .resetAgent) rfl, rfl⟩
  | flag =>
    cases hcall
    exact ⟨_, _, handle_of_name (k := .saveState) rfl, rfl⟩
  | save =>
    cases hcall
    exact ⟨_, _, handle_of_name (k := .saveRestore) rfl, rfl⟩
  | restore hvalue hsaved =>
    cases hcall
    exact ⟨_, _, (handle_of_name (k := .saveRestore) rfl).trans
      (saveRestore_of_saved hvalue hsaved), rfl⟩
  | @load kind _ events ev hload =>
    cases hcall
    exact ⟨_, _, (handle_of_name (loadModel_name kind)).trans (loadModel_eq_ok hload),
      registers_reports _ _⟩

/-- A parameter that is refused has changed no register. -/
theorem registers_of_handle_error (h : Atomic ε α)
    (herr : handle env key value s = .error err s') : s'.registers = s.registers := by
  rcases handle_cases env key value s with ⟨_, hs⟩ | ⟨k, -, hs⟩
  · cases hs.symm.trans herr
    rfl
  · exact registers_of_answer_error (s := s.report _) h (hs.symm.trans herr)

/-- A parameter that is answered has made a step of the machine. -/
theorem step_of_handle_ok {t : String} (hok : handle env key value s = .ok t s') :
    s.registers.Step env (.parameter key value) s'.registers := by
  rcases handle_cases env key value s with ⟨_, hs⟩ | ⟨k, rfl, hs⟩
  · cases hs.symm.trans hok
  · exact step_of_answer_ok (s := s.report _) (hs.symm.trans hok)

/-- **One call**: a session answers as the machine does. -/
theorem simulates (h : Atomic ε α) (env : Surroundings) (s : Session ε α) (call : Message) :
    Simulates env s call := by
  cases call with
  | apply action =>
    have hcases := apply_cases action s
    constructor
    case registers_of_error =>
      intro err s' herr
      rcases hcases with ⟨_, _, hs, hregisters⟩ | ⟨_, _, _, hs, -⟩
      · cases hs.symm.trans (map_eq_error.1 herr)
        exact hregisters
      · cases hs.symm.trans (map_eq_error.1 herr)
    case step_of_ok =>
      intro reply s' hok
      obtain ⟨outcome, hok, -⟩ := map_eq_ok.1 hok
      rcases hcases with ⟨_, _, hs, -⟩ | ⟨_, _, a, hs, hmove, -, hregisters⟩
      · cases hs.symm.trans hok
      · cases hs.symm.trans hok
        rw [hregisters]
        split
        · next hsave => exact .keep hsave hmove
        · next hsave => exact .score (Bool.eq_false_iff.2 hsave) hmove
    case committed =>
      intro outcome s' hok
      obtain ⟨_, hok, hreply⟩ := map_eq_ok.1 hok
      cases hreply
      rcases hcases with ⟨_, _, hs, -⟩ | ⟨_, _, _, hs, -, hcommitted, -⟩
      · cases hs.symm.trans hok
      · cases hs.symm.trans hok
        exact hcommitted
    case ok_of_step =>
      intro r hscores
      cases hscores
    case apply_of_score =>
      intro action' a score hcall hmove hscore
      cases hcall
      obtain ⟨s', hok, hregisters⟩ := apply_of_score hmove hscore
      exact ⟨s', map_eq_ok.2 ⟨_, hok, rfl⟩, hregisters⟩
    case search_of_table =>
      intro key value request table hcall
      cases hcall
    case nothing_saved =>
      intro value hcall
      cases hcall
  | parameter key value =>
    constructor
    case registers_of_error =>
      intro err s' herr
      exact registers_of_handle_error h (map_eq_error.1 herr)
    case step_of_ok =>
      intro reply s' hok
      obtain ⟨t, hok, -⟩ := map_eq_ok.1 hok
      exact step_of_handle_ok hok
    case committed =>
      intro outcome s' hok
      obtain ⟨t, -, hreply⟩ := map_eq_ok.1 hok
      cases hreply
    case ok_of_step =>
      intro r hscores hstep
      obtain ⟨t, s', hok, hregisters⟩ := handle_of_step (of_decide_eq_false hscores) hstep
      exact ⟨.text t, s', map_eq_ok.2 ⟨t, hok, rfl⟩, hregisters⟩
    case apply_of_score =>
      intro action a score hcall
      cases hcall
    case search_of_table =>
      intro key value request table hcall hparse hfind
      cases hcall
      obtain ⟨s', hok, hregisters⟩ := handle_of_table hparse hfind
      exact ⟨s', map_eq_ok.2 ⟨_, hok, rfl⟩, hregisters⟩
    case nothing_saved =>
      intro value' hcall hvalue hsaved
      cases hcall
      exact ⟨_, map_eq_error.2 ((handle_of_name (k := .saveRestore) rfl).trans
        (saveRestore_of_nothing hvalue hsaved))⟩

/-! ## Series of calls -/

/-- A call makes a step of the machine, or none. -/
theorem answered_cases (h : Atomic ε α) (s : Session ε α) (request : Surroundings × Message) :
    (s.answered request).registers = s.registers ∨
      s.registers.Step request.1 request.2 (s.answered request).registers := by
  have hsim := simulates h request.1 s request.2
  unfold answered
  split
  · next hok => exact .inr (hsim.step_of_ok hok)
  · next herr => exact .inl (hsim.registers_of_error herr)

theorem serve_append (s : Session ε α) (earlier later : List (Surroundings × Message)) :
    s.serve (earlier ++ later) = (s.serve earlier).serve later :=
  List.foldl_append

/-- A save is always answered. -/
theorem registers_answered_save (env : Surroundings) (s : Session ε α) :
    (s.answered (env, .save)).registers = { s.registers with saved := some s.agent } :=
  rfl

theorem initial_serve (h : Atomic ε α) (s : Session ε α)
    (requests : List (Surroundings × Message)) :
    (s.serve requests).registers.initial = s.registers.initial := by
  induction requests generalizing s with
  | nil => rfl
  | cons request requests ih =>
    refine (ih (s.answered request)).trans ?_
    rcases answered_cases h s request with heq | hstep
    · rw [heq]
    · exact hstep.initial_eq

/-- Calls without a save leave the saved agent where it is. -/
theorem saved_serve (h : Atomic ε α) (s : Session ε α) {requests : List (Surroundings × Message)}
    (hrequests : ∀ request ∈ requests, request.2 ≠ .save) :
    (s.serve requests).registers.saved = s.registers.saved := by
  induction requests generalizing s with
  | nil => rfl
  | cons request requests ih =>
    obtain ⟨hrequest, hrequests⟩ := List.forall_mem_cons.1 hrequests
    refine (ih (s.answered request) hrequests).trans ?_
    rcases answered_cases h s request with heq | hstep
    · rw [heq]
    · exact hstep.saved_eq hrequest

end Session

/-- **Sessions are register machines.**  After every series of calls a session answers the
    next one as the machine does; the machine starts with the agent that the session was
    built with and nothing saved, keeps that agent, and has saved what was current at the
    latest save. -/
theorem session_simulates {ε α : Type} [Agent α] [Evaluator ε α] (h : Atomic ε α) {agent : α}
    {evaluator : ε} {config : SessionConfig} {s : Session ε α}
    (hstart : start agent evaluator config = .ok s) :
    s.registers = ⟨agent, agent, none, evaluator, config⟩ ∧
      ∀ requests : List (Surroundings × Message),
        (∀ env call, Simulates env (s.serve requests) call) ∧
        (s.serve requests).registers.initial = agent ∧
        ((∀ request ∈ requests, request.2 ≠ .save) →
          (s.serve requests).registers.saved = none) ∧
        ∀ earlier env later, requests = earlier ++ (env, .save) :: later →
          (∀ request ∈ later, request.2 ≠ .save) →
          (s.serve requests).registers.saved = some (s.serve earlier).registers.agent := by
  have hregisters : s.registers = ⟨agent, agent, none, evaluator, config⟩ := by
    unfold start at hstart
    cases hvalid : config.validate with
    | error err =>
      rw [hvalid] at hstart
      cases hstart
    | ok _ =>
      rw [hvalid] at hstart
      cases hstart
      rfl
  refine ⟨hregisters, fun requests => ⟨fun env call => simulates h env _ call, ?_, ?_, ?_⟩⟩
  · rw [initial_serve h, hregisters]
  · intro hrequests
    rw [saved_serve h s hrequests, hregisters]
  · rintro earlier env later rfl hlater
    rw [serve_append]
    exact (saved_serve h ((s.serve earlier).answered (env, .save)) hlater).trans
      (congrArg Registers.saved (registers_answered_save env (s.serve earlier)))

/-- A loop nest with nothing to undo stays as it is, and so does an analytic evaluator that
    cannot read a model. -/
theorem AnalyticEvaluator.atomic : Atomic AnalyticEvaluator LoopNest where
  undo {a b err} h := by
    have h : LoopNest.undo a = .error err b := h
    unfold LoopNest.undo at h
    split at h
    · cases h
      rfl
    · cases h
  load {disk kind path ev ev' err} h := by
    have h : AnalyticEvaluator.load disk kind path ev = .error err ev' := h
    unfold AnalyticEvaluator.load at h
    dsimp only at h
    split at h
    · cases h
      rfl
    · cases h

/-- A session on a loop nest saves it, works on it and refuses a second undo: what it goes
    back to is the nest that was saved. -/
theorem session_simulates_loopNest :
    let env : Surroundings := ⟨⟨fun n => n, 0⟩, fun _ => .error "no file"⟩
    let s : Session AnalyticEvaluator LoopNest :=
      ⟨.matmul 64 64 64, .matmul 64 64 64, none, .fresh, {}, .empty⟩
    let requests := [(env, .save), (env, .apply "down"), (env, .parameter "undo_action" ""),
      (env, .parameter "undo_action" "")]
    Atomic AnalyticEvaluator LoopNest ∧ start (.matmul 64 64 64) .fresh {} = .ok s ∧
      (s.serve requests).registers.saved = some (.matmul 64 64 64) := by
  intro env s requests
  have hstart : start (.matmul 64 64 64) .fresh {} = .ok s := rfl
  obtain ⟨-, h⟩ := session_simulates AnalyticEvaluator.atomic hstart
  obtain ⟨-, -, -, hsaved⟩ := h requests
  exact ⟨AnalyticEvaluator.atomic, hstart,
    hsaved [] env requests.tail rfl (by decide)⟩

end ScheduleSearch

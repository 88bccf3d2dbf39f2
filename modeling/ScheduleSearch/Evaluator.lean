/-
  Evaluators: the oracles that score states and rank their actions.

  * `EvalMode` names the oracle that is asked, `ModelKind` the learned models
    that an evaluator may hold;
  * `Evaluator ε α` are the operations of a kind of evaluator `ε` on agents `α`;
  * `sortBestFirst` orders ranked actions by descending score, a NaN after all
    numbers; entries that compare equal keep their order.
-/
import ScheduleSearch.Agent
import ScheduleSearch.Decimal.Layout
import ScheduleSearch.Event

namespace ScheduleSearch

/-- Which oracle is asked: the measured throughput of the nest, a learned cost
    model, or a learned policy over actions. -/
inductive EvalMode where
  | loopNest
  | cost
  | policy
deriving DecidableEq, Repr

inductive ModelKind where
  | cost
  | policy
deriving DecidableEq, Repr

inductive EvalError where
  | backend (detail : String)
  | modelNotLoaded (kind : ModelKind)
  /-- the evaluator has no place for models of this kind -/
  | modelUnsupported (kind : ModelKind)
  | modelLoad (path detail : String)
  | unknownMode (raw : String)
  | nonFiniteScore (value : Float)
  /-- scoring had to step the agent, and the step was rejected -/
  | agent (err : AgentError)

def EvalMode.name : EvalMode → String
  | loopNest => "loop_nest"
  | cost => "cost"
  | policy => "policy"

def EvalMode.ofName (s : String) : Except EvalError EvalMode :=
  match s with
  | "loop_nest" => .ok .loopNest
  | "cost" => .ok .cost
  | "policy" => .ok .policy
  | raw => .error (.unknownMode raw)

def ModelKind.name : ModelKind → String
  | cost => "cost"
  | policy => "policy"

def EvalError.message : EvalError → String
  | backend detail => s!"evaluator backend failed: {detail}"
  | modelNotLoaded kind => s!"{kind.name} model is not loaded"
  | modelUnsupported kind => s!"evaluator does not support {kind.name} models"
  | modelLoad path detail => s!"failed to load model from {path}: {detail}"
  | unknownMode raw => s!"unknown eval mode '{raw}' (expected loop_nest, cost or policy)"
  | nonFiniteScore value =>
    "evaluator returned non-finite score " ++ Layout.message.render value
  | agent err => s!"agent rejected evaluation step: {err.message}"

/-- The message of an error, and those of its causes. -/
def EvalError.messages (e : EvalError) : List String :=
  e.message :: match e with
    | agent err => [err.message]
    | _ => []

/-! ## Ranked actions -/

/-- An action with its score under some mode.  Higher is better. -/
structure RankedAction where
  action : String
  score : Float

/-- The place of a number in the order of its bits: negative numbers by
    descending magnitude, then `-0`, then the others from `+0` upwards. -/
def orderKey (x : Float) : Int :=
  let bits := x.toBits.toNat
  if bits < 0x8000000000000000 then bits else 0x7FFFFFFFFFFFFFFF - (bits : Int)

/-- `a` may stand before `b` in a ranking. -/
def RankedAction.notAfter (a b : RankedAction) : Bool :=
  if b.score.isNaN then true
  else if a.score.isNaN then false
  else orderKey b.score ≤ orderKey a.score

/-- The ranked actions, the best first. -/
def sortBestFirst (ranked : List RankedAction) : List RankedAction :=
  ranked.mergeSort RankedAction.notAfter

theorem sortBestFirst_pair {a b : RankedAction} (h : a.notAfter b = false) :
    sortBestFirst [a, b] = [b, a] := by
  unfold sortBestFirst
  simp [List.mergeSort, List.MergeSort.Internal.splitInTwo, h]

/-! ## Evaluators -/

/-- The files an evaluator may read: the bytes under a path, or why there are
    none. -/
abbrev Disk := String → Except String (List UInt8)

/-- The operations of a kind of evaluator on a kind of agent.  A measured
    backend need not answer twice the same: an answer may depend on the turn,
    the number of scores that were asked for before. -/
class Evaluator (ε : Type) (α : Type) where
  /-- the throughput of the agent's nest under a mode -/
  score : ε → Nat → α → EvalMode → Except EvalError Float
  /-- the legal actions under a mode, the best first -/
  rank : ε → Nat → α → EvalMode → Except EvalError (List RankedAction)
  /-- takes the model at a path into use, or with an empty path out of use, and
      reports that -/
  load : Disk → ModelKind → String → EStateM EvalError ε (List Event) :=
    fun _ kind _ => throw (.modelUnsupported kind)

end ScheduleSearch

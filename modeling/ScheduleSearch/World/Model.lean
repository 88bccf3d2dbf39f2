/-
  The learned models of the analytic evaluator, and their files.

  * a cost model is a bias and a weight for each feature, a policy model a logit
    for each action or family of actions;
  * a file spells a model as an object, or as an array of the fields in order;
    members of an object that are not known are ignored, and a known one may
    stand only once.
-/
import ScheduleSearch.Json.Number
import Std.Data.TreeMap

namespace ScheduleSearch

structure CostModel where
  bias : Float
  weights : Std.TreeMap String Float

/-- Logits of actions; those without one get the default. -/
structure PolicyModel where
  logits : Std.TreeMap String Float
  default : Float

namespace PolicyModel

/-- The part of an action's name before the first underscore. -/
def family (action : String) : String :=
  String.ofList (action.toList.takeWhile (· ≠ '_'))

/-- The logit of an action, or else of its family, or else the default. -/
def logit (m : PolicyModel) (action : String) : Float :=
  ((m.logits[action]?).or m.logits[family action]?).getD m.default

end PolicyModel

/-! ## Model files -/

namespace ModelFile

open Json

/-- An object whose members are all numbers.  Of a repeated name the last one
    counts. -/
def numbers? : Value → Option (Std.TreeMap String Float)
  | .object members =>
    members.foldlM
      (fun numbers m => do return numbers.insert (← m.1.text?) (← m.2.float?)) ∅
  | _ => none

/-- The members of an object called `name`, when every name can be read. -/
def named? (name : String) (members : List (Spelling × Value)) : Option (List Value) := do
  let found ← members.mapM fun m => do
    let key ← m.1.text?
    return if key = name then some m.2 else none
  return found.filterMap id

def optional? {β : Type} (read : Value → Option β) (absent : β) : List Value → Option β
  | [] => some absent
  | [v] => read v
  | _ => none

def required? {β : Type} (read : Value → Option β) : List Value → Option β
  | [v] => read v
  | _ => none

/-- A cost model: the weights are required, the bias is zero if absent. -/
def cost? : Value → Option CostModel
  | .object members => do
    return ⟨← optional? Value.float? 0 (← named? "bias" members),
      ← required? numbers? (← named? "weights" members)⟩
  | .array [bias, weights] => do return ⟨← bias.float?, ← numbers? weights⟩
  | _ => none

/-- A policy model: the logits are required, the default is zero if absent. -/
def policy? : Value → Option PolicyModel
  | .object members => do
    return ⟨← required? numbers? (← named? "logits" members),
      ← optional? Value.float? 0 (← named? "default" members)⟩
  | .array [logits] => do return ⟨← numbers? logits, 0⟩
  | .array [logits, default] => do return ⟨← numbers? logits, ← default.float?⟩
  | _ => none

end ModelFile

end ScheduleSearch

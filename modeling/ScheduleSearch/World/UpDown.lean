/-
  The up/down world: a score that `up` raises and `down` leaves alone.

  The dump carries the history, so every history is a state of its own.
-/
import ScheduleSearch.Evaluator

namespace ScheduleSearch

structure UpDown where
  score : UInt32
  actions : List String
deriving DecidableEq, Repr

namespace UpDown

def start : UpDown := ⟨0, []⟩

def dump (a : UpDown) : String :=
  s!"score={a.score.toNat} history=[" ++ ",".intercalate a.actions ++ "]"

/-- `up` and `down`; there is no other action. -/
def apply (action : String) : EStateM AgentError UpDown Unit := fun a =>
  match action with
  | "up" => .ok () ⟨a.score + 1, a.actions ++ [action]⟩
  | "down" => .ok () ⟨a.score, a.actions ++ [action]⟩
  | _ => .error (.unknownAction action) a

/-- Drops the latest action, with what it added to the score. -/
def undo : EStateM AgentError UpDown Unit := fun a =>
  match a.actions.getLast? with
  | none => .error .nothingToUndo a
  | some action =>
    .ok () ⟨if action = "up" then a.score - 1 else a.score, a.actions.dropLast⟩

instance : Agent UpDown where
  history := actions
  forget a := { a with actions := [] }
  dump := dump
  available _ := ["up", "down"]
  apply := apply
  undo := undo

end UpDown

/-- Scores an up/down state by its score in every mode, and ranks `up` first. -/
structure UpDownEvaluator where

instance : Evaluator UpDownEvaluator UpDown where
  score _ _ a _ := .ok a.score.toFloat
  rank _ _ a _ :=
    .ok (sortBestFirst [⟨"down", a.score.toFloat⟩, ⟨"up", a.score.toFloat + 1⟩])

end ScheduleSearch

/-
  A world with a detour.

  Two ways lead to the peak: a long one through low places, and a short one along the
  shore, which is as high as the peak.  A dump shows the place alone, so a place that is
  reached along both ways is one state.  All that a search asks of a world holds here:
  `world`, `accepting`, `steadyScores`.
-/
import Mathlib.Data.List.Nodup
import ScheduleSearch.Proofs.World

namespace ScheduleSearch

inductive Place where
  | start | hill | ridge | peak | shore
deriving DecidableEq, Repr

namespace Place

def name : Place → String
  | start => "start"
  | hill => "hill"
  | ridge => "ridge"
  | peak => "peak"
  | shore => "shore"

/-- The ways that leave a place, the long one first. -/
def ways : Place → List (String × Place)
  | start => [("far", hill), ("near", shore)]
  | hill => [("on", ridge)]
  | ridge => [("on", peak)]
  | shore => [("up", peak)]
  | peak => []

def height : Place → Float
  | peak | shore => 1
  | _ => 0

end Place

/-- A place with the actions that led to it. -/
structure Detour where
  place : Place
  actions : List String
deriving DecidableEq, Repr

namespace Detour

def start : Detour := ⟨.start, []⟩

/-- Goes one of the ways on from here. -/
def apply (action : String) : EStateM AgentError Detour Unit := fun a =>
  match a.place.ways.lookup action with
  | some place => .ok () ⟨place, a.actions ++ [action]⟩
  | none => .error (.illegalAction action "no such way") a

/-- There is no way back. -/
instance : Agent Detour where
  history := actions
  forget a := { a with actions := [] }
  dump a := a.place.name
  available a := a.place.ways.map (·.1)
  apply := apply
  undo := throw .nothingToUndo

end Detour

/-- Scores a place by its height in every mode, and ranks all ways alike. -/
structure DetourEvaluator where

instance : Evaluator DetourEvaluator Detour where
  score _ _ a _ := .ok a.place.height
  rank _ _ a _ := .ok (a.place.ways.map fun way => ⟨way.1, 0⟩)

namespace Detour

open Agent SearchM

variable {a b c : Detour} {x : String} {n : Nat} {ev : DetourEvaluator}

theorem moves_iff : Moves a x b ↔
    ∃ place, a.place.ways.lookup x = some place ∧ b = ⟨place, a.actions ++ [x]⟩ := by
  show Agent.changed a (Detour.apply x) = .ok b ↔ _
  cases hway : a.place.ways.lookup x with
  | none => simp [Agent.changed, Detour.apply, EStateM.run, hway]
  | some place => simp [Agent.changed, Detour.apply, EStateM.run, hway, eq_comm]

theorem exists_moves (hx : x ∈ a.place.ways.map (·.1)) : ∃ c, Moves a x c := by
  obtain ⟨⟨x, place⟩, hway, rfl⟩ := List.mem_map.1 hx
  have hsome : (a.place.ways.lookup x).isSome := by
    rw [List.lookup_isSome_iff]
    exact ⟨_, hway, beq_self_eq_true x⟩
  obtain ⟨place, hplace⟩ := Option.isSome_iff_exists.1 hsome
  exact ⟨_, moves_iff.2 ⟨place, hplace, rfl⟩⟩

theorem nodup_fingerprints :
    ([.start, .hill, .ridge, .peak, .shore].map fun p : Place =>
      Fingerprint.ofDump p.name).Nodup := by
  decide +kernel

/-- The fingerprints of the places do not collide. -/
theorem place_eq_of_fingerprint (h : fingerprint b = fingerprint c) : b.place = c.place :=
  List.inj_on_of_nodup_map nodup_fingerprints (by cases b.place <;> decide)
    (by cases c.place <;> decide) h

theorem place_eq_of_dump (h : dump b = dump c) : b.place = c.place :=
  place_eq_of_fingerprint (World.fingerprint_congr h)

theorem world : World start n where
  distinct _ _ h := congrArg Place.name (place_eq_of_fingerprint h)
  forgets _ := rfl
  appends _ h := by
    obtain ⟨place, -, rfl⟩ := moves_iff.1 h
    rfl
  congr {b b' c x} _ _ hd h := by
    obtain ⟨place, hplace, rfl⟩ := moves_iff.1 h
    rw [place_eq_of_dump hd] at hplace
    exact ⟨_, moves_iff.2 ⟨place, hplace, rfl⟩, rfl⟩

theorem accepting : Accepting ev start n where
  available _ hx := exists_moves hx
  ranked _ hr hx := by
    cases hr
    rw [List.map_map] at hx
    exact exists_moves hx

theorem scores_iff {y : Float} : Scores ev b y ↔ y = b.place.height := by
  constructor
  · rintro ⟨turn, h⟩
    exact (Except.ok.inj h).symm
  · rintro rfl
    exact ⟨0, rfl⟩

theorem steadyScores : SteadyScores ev start n where
  unique _ hx hy := (scores_iff.1 hx).trans (scores_iff.1 hy).symm
  same _ _ hd hx := by
    rw [scores_iff] at hx ⊢
    rw [hx, place_eq_of_dump hd]

end Detour

end ScheduleSearch

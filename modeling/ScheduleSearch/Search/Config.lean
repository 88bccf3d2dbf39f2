/-
  The configuration of a search, and its budget of depth and time.

  A `CheckedConfig` has a depth limit between one and `depthCeiling`, whatever
  is asked of it later; `checkedDepth` is the only way from a requested count to
  a depth (`checkedDepth_le`).
-/
import ScheduleSearch.Duration
import ScheduleSearch.Search.Error

namespace ScheduleSearch

/-- The largest depth any expansion accepts. -/
def depthCeiling : Nat := 1024

structure SearchConfig where
  /-- the time for one search -/
  timeout : Duration := .ofParts 60 0
  /-- the seed of the candidates that are sampled -/
  seed : UInt64 := 0
  /-- the limit on any requested depth or step count -/
  maxDepth : Nat := 256
  /-- report the drawn graph -/
  debug : Bool := false
deriving DecidableEq, Repr

namespace SearchConfig

/-- The depth limit is in range. -/
def Valid (c : SearchConfig) : Prop :=
  1 ≤ c.maxDepth ∧ c.maxDepth ≤ depthCeiling

instance (c : SearchConfig) : Decidable c.Valid :=
  inferInstanceAs (Decidable (_ ∧ _))

/-- The depth of a requested count. -/
def checkedDepth (c : SearchConfig) (requested : Int) : Except SearchError Nat :=
  if requested < 0 then .error (.negativeDepth requested)
  else if requested.toNat ≤ c.maxDepth then .ok requested.toNat
  else .error (.depthBudgetExceeded requested c.maxDepth)

theorem checkedDepth_le {c : SearchConfig} {requested : Int} {depth : Nat}
    (h : c.checkedDepth requested = .ok depth) : depth ≤ c.maxDepth := by
  unfold checkedDepth at h
  split at h
  · cases h
  · split at h
    · cases h; assumption
    · cases h

/-- The time for one of `rounds` equal rounds. -/
def roundBudget (c : SearchConfig) (rounds : Nat) : Duration :=
  c.timeout.divide (max rounds 1)

end SearchConfig

/-- A configuration with a depth limit in range. -/
structure CheckedConfig extends SearchConfig where
  valid : toSearchConfig.Valid

namespace SearchConfig

def check (c : SearchConfig) : Except SearchError CheckedConfig :=
  if h : c.Valid then .ok ⟨c, h⟩
  else if c.maxDepth = 0 then .error (.invalidConfig "max_depth must be at least 1")
  else .error (.invalidConfig s!"max_depth must be at most {depthCeiling}")

end SearchConfig

namespace CheckedConfig

def withSeed (c : CheckedConfig) (seed : UInt64) : CheckedConfig :=
  ⟨{ c.toSearchConfig with seed }, c.valid⟩

def withTimeout (c : CheckedConfig) (timeout : Duration) : CheckedConfig :=
  ⟨{ c.toSearchConfig with timeout }, c.valid⟩

end CheckedConfig

/-! ## Time -/

/-- A clock as data: what its successive readings show, in nanoseconds, and how
    many walks a search that only time ends may add to its first. -/
structure Clock where
  reading : Nat → Nat
  walks : Nat

/-- The point in time `budget` after `now`; none, which is never, from
    `2 ^ 63` seconds on. -/
def deadlineAfter (now : Nat) (budget : Duration) : Option Nat :=
  let t := now + budget.nanoseconds
  if t < 0x8000000000000000 * Duration.perSecond then some t else none

end ScheduleSearch

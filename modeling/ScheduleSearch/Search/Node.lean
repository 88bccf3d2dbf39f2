/-
  The states and transitions of a search graph, and how they are drawn.

  A node keeps the shortest actions from the root that were seen and the
  measured score; its label and its fill colour follow from those.
-/
import ScheduleSearch.Decimal.Layout
import ScheduleSearch.Digest.ContentHash

namespace ScheduleSearch

structure Node where
  fingerprint : Fingerprint
  /-- the shortest actions from the root seen so far -/
  actions : List String
  /-- the measured score -/
  score : Float
  /-- seconds since the start of the search -/
  time : Float
  onBestPath : Bool

structure Transition where
  source : Fingerprint
  target : Fingerprint
  action : String
deriving DecidableEq, Repr

structure Edge extends Transition where
  onBestPath : Bool
deriving DecidableEq, Repr

namespace Transition

/-- Transitions are ordered by source, then by target, then by action. -/
instance : Ord Transition :=
  ⟨compareLex (compareOn source) (compareLex (compareOn target) (compareOn action))⟩

instance : Std.TransOrd Transition :=
  inferInstanceAs (Std.TransCmp
    (compareLex (compareOn source) (compareLex (compareOn target) (compareOn action))))

instance : Std.LawfulEqOrd Transition where
  compare_self := Std.ReflOrd.compare_self
  eq_of_compare {a b} h := by
    have h : compareLex (compareOn source) (compareLex (compareOn target) (compareOn action))
        a b = .eq := h
    simp only [compareLex_eq_eq, compareOn] at h
    rcases a with ⟨s, t, x⟩
    rcases b with ⟨s', t', x'⟩
    obtain ⟨h1, h2, h3⟩ := h
    cases Std.LawfulEqOrd.eq_of_compare (α := Fingerprint) h1
    cases Std.LawfulEqOrd.eq_of_compare (α := Fingerprint) h2
    cases Std.LawfulEqOrd.eq_of_compare (α := String) h3
    rfl

end Transition

/-! ## Drawing -/

/-- The score that gets the hottest colour. -/
def hottestScore : Float := 120

/-- The fill colour of a score: from pale cream at zero to red at
    `hottestScore`, with scores beyond the ends clamped. -/
def fillColor (score : Float) : String :=
  let raw := score / hottestScore
  let t := if !score.isFinite || raw < 0 then 0 else if 1 < raw then 1 else raw
  let mix (cold hot : Float) : List Char :=
    hex [((Binary.ofFloat (cold * (1 - t) + hot * t)).roundedTimes .awayFromZero 1).toUInt8]
  String.ofList ('#' :: (mix 0xfd 0xe0 ++ mix 0xf5 0x66 ++ mix 0xdf 0x66))

namespace Node

def depth (n : Node) : Nat := n.actions.length

/-- The score, the time and the actions, on three lines. -/
def label (n : Node) : String :=
  "GFLOPS = " ++ padLeft 9 (places 4 n.score) ++ "\n T = " ++ padLeft 9 (places 4 n.time) ++
    " s\n[" ++ ", ".intercalate n.actions ++ "]"

def fillColor (n : Node) : String :=
  ScheduleSearch.fillColor n.score

end Node

end ScheduleSearch

/-
  The analytic evaluator of loop nests.

  * the throughput of a nest is estimated from the innermost variable, the
    tiles and the depth (`Nest.throughput`);
  * the cost model is linear over the features of a nest, the policy model gives
    a logit to each legal action;
  * a model is used as it was given, or as it was loaded from a file, whose
    digest is then kept beside it.
-/
import ScheduleSearch.Digest.ContentHash
import ScheduleSearch.Evaluator
import ScheduleSearch.Maximum
import ScheduleSearch.World.LoopNest
import ScheduleSearch.World.Model

namespace ScheduleSearch

namespace Nest

/-- The throughput that no nest exceeds. -/
def peak : Float := 96

/-- The number of elements in a tile that still fit into the cache. -/
def cacheElements : Float := 4096

/-- The elements in one tile: the product of the tile sizes. -/
def tileElements (s : Nest) : Float :=
  ((s.loops.filter (·.tiled)).map (·.size.toFloat)).foldl (· * ·) 1

/-- Whether the innermost loop runs over a variable. -/
def innermostIs (s : Nest) (axis : Axis) : Bool :=
  match s.loops.getLast? with
  | some l => l.axis == axis
  | none => false

/-- A count as a float; one beyond 32 bits counts as the largest of those. -/
def count (n : Nat) : Float :=
  (min n 0xFFFFFFFF).toUInt32.toFloat

/-- The features of a nest, in the order of their names. -/
def features (s : Nest) : List (String × Float) :=
  let indicator (axis : Axis) : Float := if s.innermostIs axis then 1 else 0
  [("cursor", count s.cursor), ("depth", count s.loops.length), ("inner_k", indicator .k),
    ("inner_m", indicator .m), ("inner_n", indicator .n), ("tile_elems", s.tileElements),
    ("tiles", count s.tiles)]

/-- A feature by its name; zero for any other name. -/
def feature (s : Nest) (name : String) : Float :=
  (s.features.lookup name).getD 0

/-- How well the innermost loop streams memory. -/
def locality (s : Nest) : Float :=
  if s.innermostIs .n then 1 else if s.innermostIs .k then 0.55 else 0.25

/-- Up to three tiles help while they fit into the cache. -/
def tilingGain (s : Nest) : Float :=
  if s.tileElements ≤ cacheElements then
    1 + 0.2 * (if count s.tiles < 3 then count s.tiles else 3)
  else 0.8

/-- Each level beyond the third costs a little. -/
def overhead (s : Nest) : Float :=
  1 + 0.05 * greater (count s.loops.length - 3) 0

def throughput (s : Nest) : Float :=
  let x := peak * 0.5 * s.locality * s.tilingGain / s.overhead
  if x < peak then x else peak

end Nest

/-! ## Models in use -/

def CostModel.score (m : CostModel) (s : Nest) : Float :=
  m.bias + (m.weights.toList.map fun w => w.2 * s.feature w.1).foldl (· + ·) (-0.0)

/-- The score of a nest under a policy: the highest logit of a legal action, and
    at least the default. -/
def PolicyModel.score (m : PolicyModel) (s : Nest) : Float :=
  (s.available.map fun action => m.logit action.name).foldl greater m.default

/-- Scores loop nests by their throughput or by the learned models.  A digest is
    that of the file its model was loaded from. -/
structure AnalyticEvaluator where
  cost : Option CostModel
  policy : Option PolicyModel
  costDigest : Option ContentHash
  policyDigest : Option ContentHash

namespace AnalyticEvaluator

def fresh : AnalyticEvaluator := ⟨none, none, none, none⟩

def withCostModel (e : AnalyticEvaluator) (model : CostModel) : AnalyticEvaluator :=
  { e with cost := some model, costDigest := none }

def withPolicyModel (e : AnalyticEvaluator) (model : PolicyModel) : AnalyticEvaluator :=
  { e with policy := some model, policyDigest := none }

/-- There is a model of a kind. -/
def hasModel (e : AnalyticEvaluator) : ModelKind → Bool
  | .cost => e.cost.isSome
  | .policy => e.policy.isSome

/-- The digest of the file that the model of a kind was loaded from. -/
def digest? (e : AnalyticEvaluator) : ModelKind → Option ContentHash
  | .cost => e.costDigest
  | .policy => e.policyDigest

/-- The cost model in use. -/
def costModel (e : AnalyticEvaluator) : Except EvalError CostModel :=
  match e.cost with
  | some model => .ok model
  | none => .error (.modelNotLoaded .cost)

/-- The policy in use. -/
def policyModel (e : AnalyticEvaluator) : Except EvalError PolicyModel :=
  match e.policy with
  | some model => .ok model
  | none => .error (.modelNotLoaded .policy)

def score (e : AnalyticEvaluator) (a : LoopNest) : EvalMode → Except EvalError Float
  | .loopNest => .ok a.nest.throughput
  | .cost => do return (← e.costModel).score a.nest
  | .policy => do return (← e.policyModel).score a.nest

/-- The legal actions with the scores of the states they lead to. -/
def successors (e : AnalyticEvaluator) (a : LoopNest) (mode : EvalMode) :
    Except EvalError (List RankedAction) :=
  (Agent.available a).mapM fun action => do
    let next ← (Agent.changed a (Agent.apply action)).mapError .agent
    return ⟨action, ← e.score next mode⟩

/-- The legal actions under a mode, the best first. -/
def rank (e : AnalyticEvaluator) (a : LoopNest) : EvalMode → Except EvalError (List RankedAction)
  | .policy => do
    let model ← e.policyModel
    return sortBestFirst ((Agent.available a).map fun action => ⟨action, model.logit action⟩)
  | mode => do return sortBestFirst (← e.successors a mode)

/-- Why a file that was read is not taken into use. -/
def malformed : String := "malformed model file"

/-- The model in a file, with the digest of its bytes. -/
def readModel {μ : Type} (disk : Disk) (model? : Json.Value → Option μ) (path : String) :
    Except EvalError (μ × ContentHash) :=
  match disk path with
  | .error detail => .error (.modelLoad path detail)
  | .ok bytes =>
    match (Json.Value.read? bytes).bind model? with
    | none => .error (.modelLoad path malformed)
    | some model => .ok (model, .of ContentHash.modelDomain bytes)

/-- The model at a path, and no model under the empty path. -/
def readPath {μ : Type} (disk : Disk) (model? : Json.Value → Option μ) (path : String) :
    Except EvalError (Option (μ × ContentHash)) :=
  if path.isEmpty then .ok none else (readModel disk model? path).map some

/-- What goes into the two places for a model and its digest. -/
def unzip {μ : Type} : Option (μ × ContentHash) → Option μ × Option ContentHash
  | some (model, digest) => (some model, some digest)
  | none => (none, none)

/-- Takes the model at a path into use, or with an empty path out of use. -/
def load (disk : Disk) (kind : ModelKind) (path : String) :
    EStateM EvalError AnalyticEvaluator (List Event) := fun e =>
  let updated := match kind with
    | .cost => (readPath disk ModelFile.cost? path).map fun loaded =>
      let (cost, costDigest) := unzip loaded
      { e with cost, costDigest }
    | .policy => (readPath disk ModelFile.policy? path).map fun loaded =>
      let (policy, policyDigest) := unzip loaded
      { e with policy, policyDigest }
  match updated with
  | .error err => .error err e
  | .ok e =>
    .ok [.modelUpdated kind.name path (!path.isEmpty) (((e.digest? kind).map (·.text)).getD "")] e

instance : Evaluator AnalyticEvaluator LoopNest where
  score e _ a mode := e.score a mode
  rank e _ a mode := e.rank a mode
  load := load

end AnalyticEvaluator

end ScheduleSearch

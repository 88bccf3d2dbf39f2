/-
  The graph of visited states.

  Nodes are keyed by fingerprint, edges are kept in the order of their
  insertion, and three indexes follow the edges: the set of stored
  transitions, the edges into each state, and the number of edges out of it.

  * `record` offers a state: a state seen again is only replaced along
    strictly fewer actions, and the best state moves only to a strictly higher
    score;
  * `recordEdge` stores a transition once;
  * `remaining` are the actions from a state to the best one, `leaves` the
    states without outgoing edges, `depthTimeCurve` the time at which each
    depth was reached;
  * `candidates` draws actions with the sampler of the graph.
-/
import ScheduleSearch.Maximum
import ScheduleSearch.Sampling.Sampler
import ScheduleSearch.Search.Node
import Std.Data.TreeMap
import Std.Data.TreeSet

namespace ScheduleSearch

/-- What became of an offered state. -/
inductive NodeUpdate where
  /-- the state was not known -/
  | inserted
  /-- the new actions are strictly fewer -/
  | replaced
  /-- the stored node stays -/
  | kept
deriving DecidableEq, Repr

structure Graph where
  nodes : Std.TreeMap Fingerprint Node
  edges : Array Edge
  /-- the stored transitions -/
  transitions : Std.TreeSet Transition
  /-- the positions of the edges into a state, in insertion order -/
  inEdges : Std.TreeMap Fingerprint (List Nat)
  /-- the number of edges out of a state -/
  outDegrees : Std.TreeMap Fingerprint Nat
  /-- the state with the highest score -/
  best : Option Fingerprint
  /-- the latest time at which a state of a depth was recorded -/
  depthTimes : Std.TreeMap Nat Float
  sampler : Sampler

namespace Graph

/-- The graph without states, which draws candidates by `seed`. -/
def empty (seed : UInt64) : Graph where
  nodes := ∅
  edges := #[]
  transitions := ∅
  inEdges := ∅
  outDegrees := ∅
  best := none
  depthTimes := ∅
  sampler := .ofSeed seed

/-! ## Queries -/

def node? (g : Graph) (fp : Fingerprint) : Option Node := g.nodes[fp]?

/-- The node of the state with the highest score. -/
def bestNode? (g : Graph) : Option Node :=
  g.best.bind g.node?

def nodeList (g : Graph) : List Node := g.nodes.values

def nodeCount (g : Graph) : Nat := g.nodes.size

def edgeCount (g : Graph) : Nat := g.edges.size

def isEmpty (g : Graph) : Bool := g.nodes.isEmpty

/-- The number of edges out of a state. -/
def outDegree (g : Graph) (fp : Fingerprint) : Nat := g.outDegrees.getD fp 0

/-- The nodes without outgoing edges, in the order of their fingerprints. -/
def leaves (g : Graph) : List Node :=
  g.nodeList.filter fun n => g.outDegree n.fingerprint == 0

/-- The actions that lead from a state to the best one: those of the best node
    after those of the state, if it has them first. -/
def remaining (g : Graph) (fp : Fingerprint) : List String :=
  match g.bestNode?, g.node? fp with
  | some best, some base =>
    if best.fingerprint ≠ fp ∧ base.actions.isPrefixOf best.actions then
      best.actions.drop base.actions.length
    else []
  | _, _ => []

/-! ## Recording -/

/-- A score that the best state does not reach. -/
def improves (g : Graph) (score : Float) : Bool :=
  match g.bestNode? with
  | none => true
  | some best => best.score < score

/-- Stores a node under its state, and moves the best state there if it
    improves. -/
def store (g : Graph) (n : Node) : Graph :=
  { g with
    nodes := g.nodes.insert n.fingerprint n
    best := if g.improves n.score then some n.fingerprint else g.best }

/-- Offers a state that was reached by `actions`. -/
def record (g : Graph) (fp : Fingerprint) (actions : List String) (score time : Float) :
    NodeUpdate × Graph :=
  let n : Node := ⟨fp, actions, score, time, false⟩
  match g.node? fp with
  | none => (.inserted, g.store n)
  | some old =>
    if actions.length < old.actions.length then (.replaced, g.store n) else (.kept, g)

/-- Stores a transition; `false` if it was stored before. -/
def recordEdge (g : Graph) (t : Transition) : Bool × Graph :=
  if g.transitions.contains t then (false, g)
  else
    (true, { g with
      edges := g.edges.push ⟨t, false⟩
      transitions := g.transitions.insert t
      inEdges := g.inEdges.insert t.target (g.inEdges.getD t.target [] ++ [g.edges.size])
      outDegrees := g.outDegrees.insert t.source (g.outDegree t.source + 1) })

/-- Raises the time of a depth to `time`. -/
def recordDepthTime (g : Graph) (depth : Nat) (time : Float) : Graph :=
  match g.depthTimes[depth]? with
  | none => { g with depthTimes := g.depthTimes.insert depth time }
  | some old =>
    if old < time then { g with depthTimes := g.depthTimes.insert depth time } else g

/-- The running maximum of the times of the depths `depth`, …, with `n` of
    them left. -/
def curveFrom (g : Graph) : Nat → Nat → Float → List Float
  | 0, _, _ => []
  | n + 1, depth, running =>
    let running := match g.depthTimes[depth]? with
      | none => running
      | some time => greater running time
    running :: g.curveFrom n (depth + 1) running

/-- Entry `d` is the latest time of any state at a depth of at most `d`, up to
    the greatest depth. -/
def depthTimeCurve (g : Graph) : List Float :=
  match g.depthTimes.maxKey? with
  | none => []
  | some depth => g.curveFrom (depth + 1) 0 0

/-- At most `width` of the actions, drawn in a random order. -/
def candidates (g : Graph) (width : Nat) (actions : List String) : List String × Graph :=
  let (shuffled, sampler) := g.sampler.shuffle actions
  (shuffled.take width, { g with sampler })

end Graph

end ScheduleSearch

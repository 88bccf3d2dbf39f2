/-
  The best path, found by walking back from the best state.

  Each step follows an edge into the state whose action is the last of the
  state's recorded actions, from a state with fewer: the one whose recorded
  actions are the others if there is one, else the first of those with the
  fewest.  The walk marks what it visits, whether or not it arrives, and ends
  because the recorded actions get fewer.
-/
import ScheduleSearch.Search.Error
import ScheduleSearch.Search.Graph.Basic
import ScheduleSearch.Search.Table

namespace ScheduleSearch

/-- A walk back through the graph, the end first. -/
structure BackWalk where
  /-- the states that were visited -/
  visited : List Node
  /-- the positions of the edges that were followed -/
  edges : List Nat
  /-- their actions -/
  actions : List String
  /-- why the walk does not arrive at a root -/
  fault : Option SearchError

namespace Graph

/-- The edges into a state by `action` from a known state, with the recorded
    actions of that state. -/
def sources (g : Graph) (fp : Fingerprint) (action : String) :
    List (Nat × Edge × List String) :=
  (g.inEdges.getD fp []).filterMap fun i =>
    match g.edges[i]? with
    | none => none
    | some e =>
      if e.action = action then
        (g.node? e.source).map fun source => (i, e, source.actions)
      else none

/-- The first entry with the fewest actions below `bound`. -/
def shallowest {β : Type} (bound : Nat) (entries : List (Nat × β × List String)) :
    Option (Nat × β × List String) :=
  entries.foldl
    (fun found entry =>
      let limit := match found with
        | none => bound
        | some (_, _, actions) => actions.length
      if entry.2.2.length < limit then some entry else found)
    none

/-- The edge by which a state with the recorded actions `actions ++ [last]` is
    entered on the way back. -/
def parentEdge? (g : Graph) (fp : Fingerprint) (actions : List String) (last : String) :
    Option (Nat × Edge) :=
  let entries := g.sources fp last
  let found := (entries.find? fun entry => entry.2.2 == actions).or
    (shallowest (actions.length + 1) entries)
  found.map fun entry => (entry.1, entry.2.1)

/-- The walk back from a state, over at most `n` states. -/
def backWalk (g : Graph) : Nat → Fingerprint → BackWalk
  | 0, fp => ⟨[], [], [], some (.brokenBestPath fp.text "" "node missing from graph")⟩
  | n + 1, fp =>
    match g.node? fp with
    | none => ⟨[], [], [], some (.brokenBestPath fp.text "" "node missing from graph")⟩
    | some node =>
      match node.actions.getLast? with
      | none => ⟨[node], [], [], none⟩
      | some last =>
        match g.parentEdge? fp node.actions.dropLast last with
        | none =>
          ⟨[node], [], [], some (.brokenBestPath fp.text last
            "no incoming edge with this action from a shallower node")⟩
        | some (i, e) =>
          let w := g.backWalk n e.source
          ⟨node :: w.visited, i :: w.edges, last :: w.actions, w.fault⟩

def mark (g : Graph) (w : BackWalk) : Graph :=
  { g with
    nodes := w.visited.foldl
      (fun nodes n => nodes.insert n.fingerprint { n with onBestPath := true }) g.nodes
    edges := w.edges.foldl
      (fun edges i => edges.modify i fun e => { e with onBestPath := true }) g.edges }

/-- The table of the path from the root to the best state, which is marked. -/
def bestPath : EStateM SearchError Graph Table := fun g =>
  match g.bestNode? with
  | none => .error .emptyGraph g
  | some best =>
    let w := g.backWalk (best.actions.length + 1) best.fingerprint
    match w.fault with
    | some fault => .error fault (g.mark w)
    | none =>
      .ok ⟨"" :: w.actions.reverse, (w.visited.map (·.score)).reverse, g.depthTimeCurve⟩
        (g.mark w)

end Graph

end ScheduleSearch

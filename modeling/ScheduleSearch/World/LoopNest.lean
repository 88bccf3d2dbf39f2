/-
  The loop-nest world: the loops of a matrix product `C[m][n] += A[m][k] * B[k][n]`
  with a cursor on one of them.

  * `Nest` is the nest with its cursor, `NestAction` what can be done to it, and
    `Nest.act` what becomes of it, or why the action is not legal;
  * `LoopNest` is a nest with its history and what to go back to.

  The dump shows the loops and the cursor but not the history, so different
  actions may lead to the same state.
-/
import ScheduleSearch.Agent
import ScheduleSearch.Decimal.Integer

namespace ScheduleSearch

inductive Axis where
  | m
  | n
  | k
deriving DecidableEq, Repr

def Axis.name : Axis → String
  | m => "m"
  | n => "n"
  | k => "k"

structure Loop where
  axis : Axis
  size : UInt32
  /-- the inner half of a split -/
  tiled : Bool
deriving DecidableEq, Repr

/-- Loops, the outermost first, and the position of the cursor. -/
structure Nest where
  loops : List Loop
  cursor : Nat
deriving DecidableEq, Repr

/-! ## Actions -/

def splitFactors : List UInt32 := [2, 4, 8, 16]

inductive NestAction where
  | up
  | down
  | swapUp
  | swapDown
  | merge
  | split (factor : UInt32)
deriving DecidableEq, Repr

namespace NestAction

def name : NestAction → String
  | up => "up"
  | down => "down"
  | swapUp => "swap_up"
  | swapDown => "swap_down"
  | merge => "merge"
  | split factor => s!"split_{factor.toNat}"

/-- The action called `s`: the factor of a split is any spelling of one of the
    factors. -/
def ofName? (s : String) : Option NestAction :=
  match s with
  | "up" => some up
  | "down" => some down
  | "swap_up" => some swapUp
  | "swap_down" => some swapDown
  | "merge" => some merge
  | _ =>
    let stem := "split_".toList
    if stem.isPrefixOf s.toList then
      match IntegerRange.unsigned32.readChars (s.toList.drop stem.length) with
      | .ok n => if n.toNat.toUInt32 ∈ splitFactors then some (split n.toNat.toUInt32) else none
      | .error _ => none
    else none

end NestAction

/-! ## Loops in a list -/

/-- Exchanges the entries at `i` and `i + 1`. -/
def exchange : Nat → List Loop → List Loop
  | 0, outer :: inner :: rest => inner :: outer :: rest
  | i + 1, l :: rest => l :: exchange i rest
  | _, rest => rest

/-- Splits the loop at `i`: the inner half has `factor` rounds. -/
def splitAt (factor : UInt32) : Nat → List Loop → List Loop
  | 0, l :: rest => { l with size := l.size / factor } :: ⟨l.axis, factor, true⟩ :: rest
  | i + 1, l :: rest => l :: splitAt factor i rest
  | _, [] => []

/-- Merges the loop at `i + 1` into the one around it. -/
def mergeAt : Nat → List Loop → List Loop
  | 0, outer :: inner :: rest => { outer with size := outer.size * inner.size } :: rest
  | i + 1, l :: rest => l :: mergeAt i rest
  | _, rest => rest

namespace Nest

/-- The nest of a matrix product, with the cursor on the outermost loop. -/
def matmul (m n k : UInt32) : Nest :=
  ⟨[⟨.m, m, false⟩, ⟨.n, n, false⟩, ⟨.k, k, false⟩], 0⟩

/-- The loop inside the selected one is a tile of the same variable. -/
def canMerge (s : Nest) : Bool :=
  match s.loops[s.cursor]?, s.loops[s.cursor + 1]? with
  | some outer, some inner => outer.axis == inner.axis && inner.tiled
  | _, _ => false

/-- The size of the selected loop is a larger multiple of `factor`. -/
def canSplit (s : Nest) (factor : UInt32) : Bool :=
  match s.loops[s.cursor]? with
  | some l => factor < l.size && l.size % factor == 0
  | none => false

/-- The legal actions: up, down, splits by ascending factor, merge. -/
def available (s : Nest) : List NestAction :=
  (if 0 < s.cursor then [.up, .swapUp] else []) ++
    (if s.cursor < s.loops.length - 1 then [.down, .swapDown] else []) ++
    (splitFactors.filter s.canSplit).map .split ++
    (if s.canMerge then [.merge] else [])

/-- What an action makes of a nest, or why it is not legal. -/
def act (s : Nest) : NestAction → Except String Nest
  | .up =>
    if 0 < s.cursor then .ok ⟨s.loops, s.cursor - 1⟩
    else .error "cursor is on the outermost loop"
  | .swapUp =>
    if 0 < s.cursor then .ok ⟨exchange (s.cursor - 1) s.loops, s.cursor - 1⟩
    else .error "cursor is on the outermost loop"
  | .down =>
    if s.cursor < s.loops.length - 1 then .ok ⟨s.loops, s.cursor + 1⟩
    else .error "cursor is on the innermost loop"
  | .swapDown =>
    if s.cursor < s.loops.length - 1 then .ok ⟨exchange s.cursor s.loops, s.cursor + 1⟩
    else .error "cursor is on the innermost loop"
  | .merge =>
    if s.canMerge then .ok ⟨mergeAt s.cursor s.loops, s.cursor⟩
    else .error "no split partner directly inside"
  | .split factor =>
    if s.canSplit factor then .ok ⟨splitAt factor s.cursor s.loops, s.cursor⟩
    else .error "loop size is not a larger multiple of the factor"

/-- A loop in a dump: a tile has a mark after its variable. -/
def dumpLoop (l : Loop) : String :=
  l.axis.name ++ (if l.tiled then "'" else "") ++ Nat.repr l.size.toNat

def dump (s : Nest) : String :=
  "[" ++ " ".intercalate (s.loops.map dumpLoop) ++ s!"] cursor={s.cursor}"

/-- Two blanks for each level. -/
def indent (depth : Nat) : String :=
  String.ofList (List.replicate (2 * depth) ' ')

/-- The lines of the loops from level `depth` on. -/
def describeFrom (cursor : Nat) : Nat → List Loop → String
  | depth, [] => indent depth ++ "C[m][n] += A[m][k] * B[k][n]\n"
  | depth, l :: rest =>
    indent depth ++ s!"for {l.axis.name} in 0..{l.size.toNat}" ++
      (if l.tiled then " (tile)" else "") ++ (if depth = cursor then " <-" else "") ++ "\n" ++
      describeFrom cursor (depth + 1) rest

def describe (s : Nest) : String :=
  describeFrom s.cursor 0 s.loops

def tiles (s : Nest) : Nat :=
  s.loops.countP (·.tiled)

/-- The floating-point operations of the product: two for each round of the
    innermost loop. -/
def flops (s : Nest) : Float :=
  (s.loops.map (·.size.toFloat)).foldl (· * ·) 1 * 2

end Nest

/-! ## The agent -/

structure LoopNest where
  nest : Nest
  actions : List String
  /-- the nests before each action of the history, the latest first -/
  saved : List Nest
deriving DecidableEq, Repr

namespace LoopNest

/-- The nest of a matrix product, without a history. -/
def matmul (m n k : UInt32) : LoopNest :=
  ⟨.matmul m n k, [], []⟩

/-- Does the action called `name`. -/
def apply (name : String) : EStateM AgentError LoopNest Unit := fun a =>
  match NestAction.ofName? name with
  | none => .error (.unknownAction name) a
  | some action =>
    match a.nest.act action with
    | .error detail => .error (.illegalAction name detail) a
    | .ok nest => .ok () ⟨nest, a.actions ++ [name], a.nest :: a.saved⟩

/-- Goes back to the nest before the latest action. -/
def undo : EStateM AgentError LoopNest Unit := fun a =>
  match a.saved with
  | [] => .error .nothingToUndo a
  | nest :: saved => .ok () ⟨nest, a.actions.dropLast, saved⟩

instance : Agent LoopNest where
  history := actions
  forget a := ⟨a.nest, [], []⟩
  dump a := a.nest.dump
  available a := a.nest.available.map NestAction.name
  apply := apply
  undo := undo
  describe a := a.nest.describe

end LoopNest

end ScheduleSearch

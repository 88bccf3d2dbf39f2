/-
  Search commands: what the value of a search key asks for.

  Each key has its flags, of which those without a default must be given.
  Greedy search also has a short form of four numbers between commas, for
  several walks.
-/
import ScheduleSearch.Command.Line
import ScheduleSearch.Search.Request

namespace ScheduleSearch

inductive SearchKey where
  | greedy
  | beam
  | beamBfs
  | beamBeam
  | random
deriving DecidableEq, Repr

namespace Command

def optionFlags : List Flag :=
  [⟨"timeout", .seconds⟩, ⟨"seed", .natural⟩, ⟨"debug", .switch⟩]

/-- The flags of a key that have no default, in the order in which they are
    missed. -/
def required : SearchKey → List Flag
  | .greedy => [⟨"steps", .count⟩, ⟨"lookahead", .count⟩, ⟨"width", .natural⟩, ⟨"eval", .mode⟩]
  | .beam | .beamBfs => [⟨"steps", .count⟩, ⟨"width", .natural⟩, ⟨"eval", .mode⟩]
  | .beamBeam =>
    [⟨"steps1", .count⟩, ⟨"width1", .natural⟩, ⟨"eval1", .mode⟩, ⟨"steps2", .count⟩,
      ⟨"width2", .natural⟩, ⟨"eval2", .mode⟩]
  | .random => [⟨"steps", .count⟩]

/-- The flags of a key that have a default, but for those of all keys. -/
def defaulted : SearchKey → List Flag
  | .greedy | .beamBeam => []
  | .beam | .beamBfs => [⟨"ranking", .switch⟩]
  | .random => [⟨"eval", .mode⟩]

def flags (key : SearchKey) : List Flag :=
  required key ++ defaulted key ++ optionFlags

/-- The options that are given; none for those that are not. -/
def options (given : Given) : SearchOptions where
  timeout := given.duration? "timeout"
  seed := (given.integer? "seed").map (·.toNat.toUInt64)
  debug := (given.bool? "debug").getD false

def beamParams (given : Given) : Except Fault BeamParams := do
  let steps ← Given.required given.integer? "steps"
  let width ← Given.required given.integer? "width"
  let mode ← Given.required given.mode? "eval"
  return ⟨steps, width.toNat, mode, (given.bool? "ranking").getD true⟩

def strategy (given : Given) : SearchKey → Except Fault Strategy
  | .greedy => do
    let steps ← Given.required given.integer? "steps"
    let lookahead ← Given.required given.integer? "lookahead"
    let width ← Given.required given.integer? "width"
    let mode ← Given.required given.mode? "eval"
    return .greedy ⟨steps, lookahead, width.toNat, mode⟩
  | .beam => do return .beamDfs (← beamParams given)
  | .beamBfs => do return .beamBfs (← beamParams given)
  | .beamBeam => do
    let steps1 ← Given.required given.integer? "steps1"
    let width1 ← Given.required given.integer? "width1"
    let mode1 ← Given.required given.mode? "eval1"
    let steps2 ← Given.required given.integer? "steps2"
    let width2 ← Given.required given.integer? "width2"
    let mode2 ← Given.required given.mode? "eval2"
    return .beamBeam ⟨steps1, width1.toNat, mode1⟩ ⟨steps2, width2.toNat, mode2⟩
  | .random => do
    let steps ← Given.required given.integer? "steps"
    return .random ⟨steps, (given.mode? "eval").getD .loopNest⟩

/-- The request of a line of flags. -/
def readFlags (key : SearchKey) (line : String) : Except Fault SearchRequest := do
  let given ← readLine (flags key) line
  given.check (required key)
  return ⟨← strategy given key, options given⟩

def parseFlags (key : SearchKey) (line : String) : Except CommandError SearchRequest :=
  (readFlags key line).mapError .ofFault

/-! ## The short form of greedy search -/

def integerField (name field : String) : Except CommandError Int :=
  (IntegerRange.signed64.read field).mapError fun _ =>
    .invalidValue name field "expected an integer"

def naturalField (name field : String) : Except CommandError Nat :=
  match IntegerRange.unsigned64.read field with
  | .ok n => .ok n.toNat
  | .error _ => .error (.invalidValue name field "expected a non-negative integer")

/-- The fields between commas, without the blanks around them. -/
def fields (line : String) : List String :=
  (Text.pieces (· == ',') line.toList).map fun cs => String.ofList (Text.trimChars cs)

/-- The request of the walks, steps, depth and width between commas. -/
def parseShort (line : String) : Except CommandError SearchRequest :=
  match fields line with
  | [walks, steps, depth, width] => do
    let count ← naturalField "walk_count" walks
    if 0x100000000 ≤ count then throw (.invalidValue "walk_count" walks "too large")
    let steps ← integerField "step_count" steps
    let depth ← integerField "search_depth" depth
    let width ← naturalField "search_width" width
    return ⟨.greedyWalks count ⟨steps, depth, width, .loopNest⟩, {}⟩
  | fields => .error (.legacyArity 4 fields.length)

def parse (key : SearchKey) (line : String) : Except CommandError SearchRequest :=
  if key = .greedy ∧ ',' ∈ line.toList then parseShort line else parseFlags key line

end Command

end ScheduleSearch

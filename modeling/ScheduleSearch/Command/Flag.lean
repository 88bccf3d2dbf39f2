/-
  Flags of a command, and the values that they take.

  A flag has a name and a kind, which says how its value is read.  A switch
  stands for itself; any other flag needs a value.
-/
import ScheduleSearch.Command.Fault
import ScheduleSearch.Decimal.Integer
import ScheduleSearch.Decimal.Literal
import ScheduleSearch.Duration
import ScheduleSearch.Evaluator

namespace ScheduleSearch.Command

inductive FlagKind where
  /-- a count, with a sign -/
  | count
  /-- a width or a seed, without one -/
  | natural
  | mode
  | seconds
  | switch
deriving DecidableEq, Repr

inductive FlagValue where
  | integer (n : Int)
  | mode (mode : EvalMode)
  | duration (d : Duration)
  | bool (b : Bool)
deriving DecidableEq, Repr

structure Flag where
  name : String
  kind : FlagKind
deriving DecidableEq, Repr

/-- The truth value of a word, in any case. -/
def truth? (s : String) : Option Bool :=
  let word := String.ofList (s.toList.map Char.toLower)
  if word ∈ ["y", "yes", "t", "true", "on", "1"] then some true
  else if word ∈ ["n", "no", "f", "false", "off", "0"] then some false
  else none

def readSeconds (s : String) : Except String Duration :=
  match Literal.read? s with
  | none => .error "expected seconds"
  | some l => (Duration.ofSeconds l.toFloat).mapError DurationFault.message

namespace FlagKind

/-- The value of a flag of this kind, or why the text is none. -/
def read : FlagKind → String → Except String FlagValue
  | count, s => (IntegerRange.signed64.read s).mapError IntegerFault.message |>.map .integer
  | natural, s => (IntegerRange.unsigned64.read s).mapError IntegerFault.message |>.map .integer
  | mode, s => (EvalMode.ofName s).mapError EvalError.message |>.map .mode
  | seconds, s => (readSeconds s).map .duration
  | switch, s =>
    match truth? s with
    | some b => .ok (.bool b)
    | none => .error "value was not a boolean"

end FlagKind

namespace Flag

/-- The flag with its value, as it is shown. -/
def usage (f : Flag) : String :=
  let value := String.ofList (f.name.toList.map Char.toUpper)
  if f.kind = .switch then s!"--{f.name}[=<{value}>]" else s!"--{f.name} <{value}>"

/-- The value of a flag, or why the text is none. -/
def read (f : Flag) (value : String) : Except Fault FlagValue :=
  (f.kind.read value).mapError (.badValue f.usage value)

end Flag

end ScheduleSearch.Command

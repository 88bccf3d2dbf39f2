/-
  What is wrong with a command.

  The reader of a command line tells of a fault what kind it is, which arguments
  and which value it is about, as they are shown, and the message that is shown
  (`Fault`).  A command is refused with an error that gives the bare names of
  flags, and takes everything from the fault (`CommandError.ofFault`):
  `--width <WIDTH>`, `--debug[=<DEBUG>]` and `--width=3` are cut down to the
  name by `flagName`, and of a message only the first line is kept.
-/
import ScheduleSearch.Text.Visible
import ScheduleSearch.Text.Words

namespace ScheduleSearch

inductive CommandError where
  /-- a token that is no flag -/
  | malformedToken (token : String)
  | duplicateFlag (flag : String)
  | missingFlag (flag : String)
  | unknownFlag (flag : String)
  | invalidValue (flag value detail : String)
  /-- the wrong number of fields between commas -/
  | legacyArity (expected got : Nat)
  | rejected (detail : String)
deriving DecidableEq, Repr

def CommandError.message : CommandError → String
  | malformedToken token => s!"malformed token '{token}' (expected --name or --name=value)"
  | duplicateFlag flag => s!"flag --{flag} given more than once"
  | missingFlag flag => s!"missing required flag --{flag}"
  | unknownFlag flag => s!"unknown flag --{flag}"
  | invalidValue flag value detail => s!"invalid value '{value}' for --{flag}: {detail}"
  | legacyArity expected got => s!"expected {expected} comma-separated fields, got {got}"
  | rejected detail => s!"rejected command: {detail}"

namespace Command

/-! ## Faults of a line -/

inductive FaultKind where
  /-- arguments that must be given are not -/
  | missingArgument
  /-- an argument that is not expected -/
  | unknownArgument
  /-- an argument that cannot stand beside another, or be given again -/
  | conflict
  /-- a value that is not there, or not among those that are allowed -/
  | invalidValue
  /-- a value that its argument does not read -/
  | rejectedValue
  /-- any other fault; lines of flags have none -/
  | other
deriving DecidableEq, Repr

/-- What a part of a fault is about. -/
inductive Subject where
  | argument
  | value
deriving DecidableEq, Repr

/-- A part of a fault: what is shown, or something that is no text. -/
inductive Context where
  | text (s : String)
  | texts (ss : List String)
  | number (n : Int)
deriving DecidableEq, Repr

structure Fault where
  kind : FaultKind
  contexts : List (Subject × Context)
  /-- what is shown, before the usage of the command -/
  message : String
deriving DecidableEq, Repr

namespace Fault

/-- The text about a subject; of several texts the first. -/
def context? (fault : Fault) (subject : Subject) : Option String :=
  match fault.contexts.lookup subject with
  | some (.text s) => some s
  | some (.texts ss) => ss.head?
  | _ => none

/-- These arguments, in order, are not given. -/
def missing (arguments : List String) : Fault where
  kind := .missingArgument
  contexts := [(.argument, .texts arguments)]
  message := "error: the following required arguments were not provided:\n" ++
    String.join (arguments.map fun argument => s!"  {argument}\n")

/-- A value that was given is not found again, once the line was read. -/
def lost (name : String) : Fault where
  kind := .missingArgument
  contexts := []
  message := s!"error: The following required argument was not provided: {name}\n"

def unknown (argument : String) : Fault where
  kind := .unknownArgument
  contexts := [(.argument, .text argument)]
  message := s!"error: unexpected argument '{Text.visible argument}' found\n"

def duplicate (argument : String) : Fault where
  kind := .conflict
  contexts := [(.argument, .text argument)]
  message := s!"error: the argument '{argument}' cannot be used multiple times\n"

def valueRequired (argument : String) : Fault where
  kind := .invalidValue
  contexts := [(.argument, .text argument), (.value, .text "")]
  message := s!"error: a value is required for '{argument}' but none was supplied\n"

/-- The argument does not read the value.  Only the message is meant to be shown,
    so only there the value loses what a terminal would act on. -/
def badValue (argument value why : String) : Fault where
  kind := .rejectedValue
  contexts := [(.argument, .text argument), (.value, .text value)]
  message := s!"error: invalid value '{Text.visible value}' for '{argument}': {Text.visible why}\n"

end Fault

/-! ## Errors -/

/-- The name in an argument as it is shown: without the leading dashes, up to a
    blank, `=`, `<` or `[`. -/
def flagName (argument : String) : String :=
  String.ofList
    ((argument.toList.dropWhile (· = '-')).takeWhile fun c =>
      c ≠ ' ' ∧ c ≠ '=' ∧ c ≠ '<' ∧ c ≠ '[')

end Command

open Command in
/-- The error of a command with a fault. -/
def CommandError.ofFault (fault : Fault) : CommandError :=
  let argument := (fault.context? .argument).getD ""
  match fault.kind with
  | .missingArgument => .missingFlag (flagName argument)
  | .unknownArgument =>
    if "--".toList.isPrefixOf argument.toList then .unknownFlag (flagName argument)
    else .malformedToken argument
  | .conflict => .duplicateFlag (flagName argument)
  | .invalidValue | .rejectedValue =>
    .invalidValue (flagName argument) ((fault.context? .value).getD "")
      (Text.firstLine fault.message)
  | .other => .rejected (Text.firstLine fault.message)

end ScheduleSearch

/-
  Command lines: tokens that give flags their values.

  `--name=value` gives a value at once.  `--name` alone gives a switch the value
  true, and leaves any other flag waiting for the next token; such a value is
  only read when the next flag begins or the line ends, so a token that is out
  of place is reported first.  `readTokens` goes through the tokens from the
  left and stops at the first fault.
-/
import ScheduleSearch.Command.Flag
import ScheduleSearch.Text.Words

namespace ScheduleSearch.Command

/-- The values given so far, by the names of their flags. -/
abbrev Given := List (String × FlagValue)

/-- A flag that has begun without `=`, with its value if that was found. -/
abbrev Pending := Option (Flag × Option String)

namespace Given

/-- Gives a flag its value; a flag can only be given once. -/
def add (given : Given) (f : Flag) (value : String) : Except Fault Given :=
  if (given.lookup f.name).isSome then .error (.duplicate f.usage)
  else do return given ++ [(f.name, ← f.read value)]

/-- Ends the flag that has begun. -/
def settle (given : Given) : Pending → Except Fault Given
  | none => .ok given
  | some (f, none) => .error (.valueRequired f.usage)
  | some (f, some value) => given.add f value

end Given

/-! ## Tokens -/

/-- A token that does not begin with two dashes stands where none is expected.
    After one dash only the first character counts. -/
def stray (token : String) : Fault :=
  match token.toList with
  | '-' :: c :: _ => .unknown (String.ofList ['-', c])
  | _ => .unknown token

/-- The mark of an exponent, in either case. -/
def isExponentMark (c : Char) : Bool :=
  c == 'e' || c == 'E'

/-- Digits with at most one point, not in front and not after an exponent mark,
    and at most one such mark, neither first nor last. -/
def isNumber (cs : List Char) : Bool :=
  let whole := cs.takeWhile (!isExponentMark ·)
  let digitsAndPoint := whole.all (fun c => Literal.isDigit c || c == '.') &&
    whole.count '.' ≤ 1 && whole.head? != some '.'
  match cs.dropWhile (!isExponentMark ·) with
  | [] => digitsAndPoint
  | _ :: exponent =>
    digitsAndPoint && !whole.isEmpty && !exponent.isEmpty && exponent.all Literal.isDigit

/-- The token can be the value of a flag that waits for one. -/
def Flag.takes (f : Flag) (token : String) : Bool :=
  match token.toList with
  | '-' :: c :: cs => f.kind == .count && isNumber (c :: cs)
  | _ => true

/-- A token of a flag: the name, and the value after the first `=`. -/
def flagToken? (token : String) : Option (String × Option String) :=
  match token.toList with
  | '-' :: '-' :: cs =>
    let name := String.ofList (cs.takeWhile (· ≠ '='))
    match cs.dropWhile (· ≠ '=') with
    | [] => some (name, none)
    | _ :: value => some (name, some (String.ofList value))
  | _ => none

def readTokens (flags : List Flag) : Given → Pending → List String → Except Fault Given
  | given, pending, [] => given.settle pending
  | given, pending, token :: rest =>
    if token = "--" then
      match rest with
      | [] => given.settle pending
      | next :: _ => .error (.unknown next)
    else
      match flagToken? token with
      | some (name, value) =>
        match flags.find? (·.name == name) with
        | none => .error (.unknown ("--" ++ name))
        | some f =>
          match given.settle pending with
          | .error err => .error err
          | .ok given =>
            match value, f.kind with
            | none, .switch =>
              match given.add f "true" with
              | .error err => .error err
              | .ok given => readTokens flags given none rest
            | none, _ => readTokens flags given (some (f, none)) rest
            | some value, _ =>
              match given.add f value with
              | .error err => .error err
              | .ok given => readTokens flags given none rest
      | none =>
        match pending with
        | some (f, none) =>
          if f.takes token then readTokens flags given (some (f, some token)) rest
          else .error (stray token)
        | _ => .error (stray token)

def readLine (flags : List Flag) (line : String) : Except Fault Given :=
  readTokens flags [] none (Text.words line)

/-! ## Looking values up -/

namespace Given

variable (given : Given)

def integer? (name : String) : Option Int :=
  match given.lookup name with
  | some (.integer n) => some n
  | _ => none

def mode? (name : String) : Option EvalMode :=
  match given.lookup name with
  | some (.mode mode) => some mode
  | _ => none

def duration? (name : String) : Option Duration :=
  match given.lookup name with
  | some (.duration d) => some d
  | _ => none

def bool? (name : String) : Option Bool :=
  match given.lookup name with
  | some (.bool b) => some b
  | _ => none

/-- These flags must all be given. -/
def check (flags : List Flag) : Except Fault Unit :=
  match flags.filter fun f => (given.lookup f.name).isNone with
  | [] => .ok ()
  | missing => .error (.missing (missing.map Flag.usage))

/-- The value of a flag that must be given. -/
def required {β : Type} (look : String → Option β) (name : String) : Except Fault β :=
  match look name with
  | some x => .ok x
  | none => .error (.lost name)

end Given

end ScheduleSearch.Command

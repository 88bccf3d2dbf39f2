/-
  The part of a text that a terminal shows: the text without control characters
  and without escape sequences.

  * `ShowMode.next` reads one character.  An escape character starts a
    sequence, and what follows it tells how far the sequence goes;
  * `visibleChars` keeps the characters that are shown: those of plain text
    that are no controls, and the blank controls, which also end the shorter
    sequences.  A sequence that has no end takes the rest of the text.  Nothing
    is shown that is not there (`visibleChars_sublist`).

  Sequences are made of bytes.  A character outside ASCII means nothing in them,
  but its UTF-8 form may hold the byte that terminates a string.
-/

namespace ScheduleSearch.Text

/-- A control character of ASCII. -/
def isControl (c : Char) : Bool :=
  c.toNat < 0x20 || c.toNat == 0x7F

/-- A control that moves on to a new column, line or page: tab, line feed, form
    feed and carriage return. -/
def isBlankControl (c : Char) : Bool :=
  let n := c.toNat
  n == 9 || n == 10 || n == 12 || n == 13

/-- The string terminator is among the bytes of `c`. -/
def holdsTerminator (c : Char) : Bool :=
  (String.utf8EncodeChar c).contains 0x9C

/-- What the next character of a text belongs to. -/
inductive ShowMode where
  | plain
  /-- the escape character came last -/
  | escape
  /-- an escape sequence, after a character that does not end it -/
  | intermediate
  /-- a control sequence, up to its final letter -/
  | control
  /-- a command to the system, up to a bell -/
  | command
  /-- the first character of a string for a device -/
  | device
  /-- the numbers in front of such a string -/
  | deviceNumbers
  /-- the marks behind the numbers -/
  | deviceMarks
  /-- a string for a device or a program, up to the string terminator -/
  | string
deriving DecidableEq, Repr

namespace ShowMode

/-- Controls have their effect in this mode. -/
def actsOnControls : ShowMode → Bool
  | plain | escape | intermediate | control => true
  | command | device | deviceNumbers | deviceMarks | string => false

/-- The mode after the escape character and `c`. -/
def afterEscape (c : Char) : ShowMode :=
  if c.toNat < 0x30 then .intermediate
  else if c = '[' then .control
  else if c = ']' then .command
  else if c = 'P' then .device
  else if c ∈ ['X', '^', '_'] then .string
  else .plain

/-- The mode after a character of ASCII that is no control. -/
def afterGraphic (c : Char) : ShowMode → ShowMode
  | plain => plain
  | escape => afterEscape c
  | intermediate => if c.toNat < 0x30 then intermediate else plain
  | control => if c.toNat < 0x40 then control else plain
  | command => command
  | device =>
    if c.toNat < 0x30 then deviceMarks else if c.toNat < 0x40 then deviceNumbers else string
  | deviceNumbers =>
    if c.toNat < 0x30 then deviceMarks else if c.toNat < 0x3C then deviceNumbers else string
  | deviceMarks => if c.toNat < 0x30 then deviceMarks else string
  | string => string

/-- The mode after a control other than cancel, substitute and escape: a blank
    control ends the shorter sequences, and a bell ends a command. -/
def afterControl (c : Char) (mode : ShowMode) : ShowMode :=
  if mode = command then if c.toNat = 7 then plain else command
  else if mode.actsOnControls && isBlankControl c then plain
  else mode

/-- The mode after a character outside ASCII. -/
def afterNonAscii (c : Char) (mode : ShowMode) : ShowMode :=
  if mode = string ∧ holdsTerminator c then plain else mode

/-- The mode after `c`.  A cancel or substitute character ends any sequence and
    an escape character starts a new one. -/
def next (mode : ShowMode) (c : Char) : ShowMode :=
  if c.toNat = 0x18 ∨ c.toNat = 0x1A then plain
  else if c.toNat = 0x1B then escape
  else if isControl c then afterControl c mode
  else if 0x7F < c.toNat then afterNonAscii c mode
  else afterGraphic c mode

/-- `c` is shown in this mode. -/
def shows (mode : ShowMode) (c : Char) : Bool :=
  if isControl c then isBlankControl c && mode.actsOnControls else mode == plain

end ShowMode

/-- The characters of `cs` that are shown, read from `mode` on. -/
def visibleChars (mode : ShowMode) : List Char → List Char
  | [] => []
  | c :: cs =>
    let rest := visibleChars (mode.next c) cs
    if mode.shows c then c :: rest else rest

/-- The part of `s` that a terminal shows. -/
def visible (s : String) : String :=
  String.ofList (visibleChars .plain s.toList)

theorem visibleChars_sublist (mode : ShowMode) (cs : List Char) :
    (visibleChars mode cs).Sublist cs := by
  induction cs generalizing mode with
  | nil => exact .slnil
  | cons c cs ih =>
    unfold visibleChars
    split
    · exact (ih _).cons_cons _
    · exact (ih _).cons _

end ScheduleSearch.Text

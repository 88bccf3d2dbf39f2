/-
  Cutting text: pieces between separators, words between blanks, trimmed text,
  and first lines.

  * `isBlank` is the White_Space property of characters;
  * `pieces p cs` are the runs of `cs` between the characters in `p`, empty
    runs included, so `n` separators make `n + 1` pieces (`length_pieces`);
  * `words` keeps the non-empty pieces between blanks, and `trimChars` drops
    the blanks at both ends;
  * `firstLine` ends before the first line break.
-/

namespace ScheduleSearch.Text

/-- The White_Space property: the ASCII blanks, next line, the no-break and
    ideographic spaces, and the spaces and separators of general punctuation. -/
def isBlank (c : Char) : Bool :=
  let n := c.toNat
  (9 ≤ n && n ≤ 13) || n == 0x20 || n == 0x85 || n == 0xA0 || n == 0x1680 ||
    (0x2000 ≤ n && n ≤ 0x200A) || n == 0x2028 || n == 0x2029 || n == 0x202F || n == 0x205F ||
    n == 0x3000

/-- The runs between the characters in `p`, in order, empty runs included. -/
def pieces (p : Char → Bool) : List Char → List (List Char)
  | [] => [[]]
  | c :: cs =>
    match pieces p cs with
    | [] => []
    | run :: runs => if p c then [] :: run :: runs else (c :: run) :: runs

theorem length_pieces (p : Char → Bool) (cs : List Char) :
    (pieces p cs).length = cs.countP p + 1 := by
  induction cs with
  | nil => rfl
  | cons c cs ih =>
    unfold pieces
    cases h : pieces p cs with
    | nil => simp [h] at ih
    | cons run runs => by_cases hc : p c <;> simp_all

/-- The words of `s`: the non-empty runs between blanks. -/
def words (s : String) : List String :=
  ((pieces isBlank s.toList).filter fun w => !w.isEmpty).map String.ofList

/-- `cs` without the blanks at both ends. -/
def trimChars (cs : List Char) : List Char :=
  ((cs.dropWhile isBlank).reverse.dropWhile isBlank).reverse

/-- The first line of `s`, without its line break: a line feed, perhaps after a
    carriage return. -/
def firstLine (s : String) : String :=
  let line := s.toList.takeWhile (· ≠ '\n')
  if '\n' ∈ s.toList ∧ line.getLast? = some '\r' then String.ofList line.dropLast
  else String.ofList line

end ScheduleSearch.Text

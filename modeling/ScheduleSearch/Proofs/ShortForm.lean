/-
  The short form of a greedy search.

  A greedy search with a comma in its value is the short form for several walks: four numbers
  between commas, with any blanks around them.

  * `Fields`: the texts between the commas of a line (`fields_iff`);
  * `IntegerRange.Spells`: the texts of the integers of a range, which are what a range reads
    (`read_eq_ok_iff`);
  * `Column`, `Offends`: what the fields are to be, and the first field that is not;
  * `Asks`, `ShortAnswer`: what four fields ask for, or which fault is reported
    (`parseShort_answer`);
  * **`parse_commas`**: so a line with a comma asks for these walks exactly if it has four fields
    and each is a number of its column.
-/
import Mathlib.Data.List.DropRight
import Mathlib.Data.List.Forall2
import ScheduleSearch.Command.Request
import ScheduleSearch.Proofs.IntegerText
import ScheduleSearch.Proofs.Pieces

namespace ScheduleSearch

/-! ## Fields -/

namespace Text

theorem pieces_eq_splitOn (c : Char) (cs : List Char) : pieces (· == c) cs = cs.splitOn c := by
  induction cs with
  | nil => rfl
  | cons d cs ih =>
    rw [List.splitOn, List.splitOnP_cons_eq_if_modifyHead, ← List.splitOn, ← ih, pieces]
    cases h : pieces (· == c) cs with
    | nil => exact absurd h (pieces_ne_nil _ _)
    | cons run runs => rfl

/-- The text between the blanks at both ends. -/
structure Trimmed (cs : List Char) (text : String) : Prop where
  around : ∃ before after, cs = before ++ text.toList ++ after ∧
    (∀ c ∈ before, isBlank c = true) ∧ ∀ c ∈ after, isBlank c = true
  first : ∀ c, text.toList.head? = some c → isBlank c = false
  last : ∀ c, text.toList.getLast? = some c → isBlank c = false

theorem trimChars_eq (cs : List Char) :
    trimChars cs = (cs.dropWhile isBlank).rdropWhile isBlank := rfl

theorem dropWhile_isBlank_of_head {cs : List Char}
    (h : ∀ c, cs.head? = some c → isBlank c = false) : cs.dropWhile isBlank = cs := by
  cases cs with
  | nil => rfl
  | cons c cs => rw [List.dropWhile_cons_of_neg (by simp [h c rfl])]

/-- Blanks at both ends are taken away. -/
theorem Trimmed.eq {cs : List Char} {text : String} (h : Trimmed cs text) :
    text = String.ofList (trimChars cs) := by
  obtain ⟨before, after, rfl, hbefore, hafter⟩ := h.around
  rw [← String.toList_inj, String.toList_ofList, trimChars_eq, List.append_assoc,
    List.dropWhile_append_of_pos hbefore]
  by_cases hnil : text.toList = []
  · rw [hnil, List.nil_append, List.dropWhile_eq_nil_iff.2 hafter]
    rfl
  · have hfirst : ∀ c, (text.toList ++ after).head? = some c → isBlank c = false := by
      rw [List.head?_append_of_ne_nil _ hnil]
      exact h.first
    have hlast : ∀ c, text.toList.reverse.head? = some c → isBlank c = false := by
      rw [List.head?_reverse]
      exact h.last
    have hreverse : ∀ c ∈ after.reverse, isBlank c = true :=
      fun c hc => hafter c (List.mem_reverse.1 hc)
    rw [dropWhile_isBlank_of_head hfirst, List.rdropWhile, List.reverse_append,
      List.dropWhile_append_of_pos hreverse, dropWhile_isBlank_of_head hlast,
      List.reverse_reverse]

theorem trimmed_trimChars (cs : List Char) : Trimmed cs (String.ofList (trimChars cs)) where
  around := by
    refine ⟨cs.takeWhile isBlank, (cs.dropWhile isBlank).rtakeWhile isBlank, ?_,
      fun c => List.mem_takeWhile_imp, fun c => List.mem_rtakeWhile_imp⟩
    rw [String.toList_ofList, trimChars_eq, List.append_assoc, List.rdropWhile_append_rtakeWhile,
      List.takeWhile_append_dropWhile]
  first := by
    intro c hc
    rw [String.toList_ofList, trimChars_eq] at hc
    have hhead := List.head?_dropWhile_not isBlank cs
    obtain ⟨rest, hrest⟩ := List.rdropWhile_prefix isBlank (cs.dropWhile isBlank)
    rw [← hrest, List.head?_append, hc] at hhead
    exact hhead
  last := by
    intro c hc
    rw [String.toList_ofList, trimChars_eq, List.rdropWhile, List.getLast?_reverse] at hc
    have hhead := List.head?_dropWhile_not isBlank (cs.dropWhile isBlank).reverse
    rw [hc] at hhead
    exact hhead

end Text

namespace Command

/-- The texts between the commas of a line, without the blanks around them. -/
def Fields (line : String) (texts : List String) : Prop :=
  ∃ pieces : List (List Char), pieces ≠ [] ∧ line.toList = [','].intercalate pieces ∧
    (∀ piece ∈ pieces, ',' ∉ piece) ∧ List.Forall₂ Text.Trimmed pieces texts

/-- A line has these fields and no others. -/
theorem fields_iff {line : String} {texts : List String} :
    Fields line texts ↔ texts = fields line := by
  unfold fields
  rw [Text.pieces_eq_splitOn]
  constructor
  · rintro ⟨pieces, hne, hline, hcomma, htrimmed⟩
    rw [hline, List.splitOn_intercalate ',' hcomma hne]
    clear hne hline hcomma
    induction htrimmed with
    | nil => rfl
    | cons htext _ ih => rw [List.map_cons, ← htext.eq, ← ih]
  · rintro rfl
    refine ⟨line.toList.splitOn ',', List.splitOn_ne_nil _ _, (List.intercalate_splitOn ',').symm,
      ?_, ?_⟩
    · intro piece hpiece hcomma
      rw [← Text.pieces_eq_splitOn] at hpiece
      have hplain := Text.not_separator_of_mem_pieces hpiece ',' hcomma
      cases hplain
    · rw [List.forall₂_map_right_iff, List.forall₂_same]
      exact fun cs _ => Text.trimmed_trimChars cs

end Command

/-! ## Integers -/

namespace IntegerRange

/-- The text is an integer of the range: digits, perhaps after a sign.  Only a range with
    negative integers knows the minus sign. -/
inductive Spells (r : IntegerRange) (text : String) : Int → Prop
  | intro {digits : List Char} {negative : Bool} : Digits digits →
      Signed digits text.toList negative → (negative = true → r.low < 0) →
      r.low ≤ signed negative (Nat.ofDigitChars 10 digits 0) →
      signed negative (Nat.ofDigitChars 10 digits 0) ≤ r.high →
      Spells r text (signed negative (Nat.ofDigitChars 10 digits 0))

variable {r : IntegerRange} {text : String} {n : Int}

/-- **A range reads** the texts of its integers, and no others. -/
theorem read_eq_ok_iff (hlow : r.low ≤ 0) (hhigh : 0 ≤ r.high) :
    r.read text = .ok n ↔ r.Spells text n := by
  have hreaches (negative : Bool) (k : Nat) : r.Reaches negative k ↔
      r.low ≤ signed negative k ∧ signed negative k ≤ r.high := by
    unfold Reaches signed
    cases negative
    · simp only [Bool.false_eq_true, if_false]
      omega
    · simp only [if_true]
      omega
  unfold read
  rw [readChars_eq_ok_iff hlow hhigh]
  constructor
  · rintro ⟨digits, negative, hdigits, hsigned, hminus, hreach, rfl⟩
    obtain ⟨hle, hge⟩ := (hreaches negative _).1 hreach
    exact .intro hdigits hsigned hminus hle hge
  · rintro ⟨hdigits, hsigned, hminus, hle, hge⟩
    exact ⟨_, _, hdigits, hsigned, hminus, (hreaches _ _).2 ⟨hle, hge⟩, rfl⟩

/-- A text is the text of one integer. -/
theorem Spells.unique {m : Int} (hlow : r.low ≤ 0) (hhigh : 0 ≤ r.high) (hn : r.Spells text n)
    (hm : r.Spells text m) : n = m := by
  rw [← read_eq_ok_iff hlow hhigh] at hn hm
  rw [hn] at hm
  exact Except.ok.inj hm

theorem signed64_read_iff : signed64.read text = .ok n ↔ signed64.Spells text n :=
  read_eq_ok_iff (by decide) (by decide)

theorem unsigned64_read_iff : unsigned64.read text = .ok n ↔ unsigned64.Spells text n :=
  read_eq_ok_iff (by decide) (by decide)

/-- The ranges without negative integers differ in their bounds only. -/
theorem unsigned32_spells_iff :
    unsigned32.Spells text n ↔ unsigned64.Spells text n ∧ n < 0x100000000 := by
  have hhigh : unsigned32.high = 0xFFFFFFFF ∧ unsigned64.high = 0xFFFFFFFFFFFFFFFF := ⟨rfl, rfl⟩
  constructor
  · rintro ⟨hdigits, hsigned, hminus, hle, hge⟩
    exact ⟨.intro hdigits hsigned hminus hle (by omega), by omega⟩
  · rintro ⟨⟨hdigits, hsigned, hminus, hle, -⟩, hlt⟩
    exact .intro hdigits hsigned hminus hle (by omega)

end IntegerRange

namespace Command

/-! ## Columns -/

/-- What a field of the short form is to be. -/
structure Column where
  name : String
  range : IntegerRange

def columns : List Column :=
  [⟨"walk_count", .unsigned32⟩, ⟨"step_count", .signed64⟩, ⟨"search_depth", .signed64⟩,
    ⟨"search_width", .unsigned64⟩]

namespace Column

/-- The text is an integer of the column. -/
def Accepts (c : Column) (text : String) : Prop :=
  ∃ n, c.range.Spells text n

/-- What the text of a column is read as: its integer, or the fault with the name and the
    text. -/
inductive Reads {β : Type} (c : Column) (value : β → Int) (text : String) :
    Except CommandError β → Prop
  | ok {x : β} : c.range.Spells text (value x) → Reads c value text (.ok x)
  | error {detail : String} : ¬ c.Accepts text →
      Reads c value text (.error (.invalidValue c.name text detail))

end Column

/-- The first field that its column does not accept, with the name of the column. -/
inductive Offends : List Column → List String → String → String → Prop
  | here {c : Column} {columns : List Column} {text : String} {texts : List String} :
      ¬ c.Accepts text → Offends (c :: columns) (text :: texts) c.name text
  | later {c : Column} {columns : List Column} {text name offending : String}
      {texts : List String} : c.Accepts text → Offends columns texts name offending →
      Offends (c :: columns) (text :: texts) name offending

/-! ## Reading -/

theorem reads_integerField (name text : String) :
    Column.Reads ⟨name, .signed64⟩ id text (integerField name text) := by
  unfold integerField
  cases hread : IntegerRange.signed64.read text with
  | ok n => exact .ok (IntegerRange.signed64_read_iff.1 hread)
  | error fault =>
    refine .error fun ⟨n, hn⟩ => ?_
    rw [IntegerRange.signed64_read_iff.2 hn] at hread
    cases hread

theorem reads_naturalField (name text : String) :
    Column.Reads ⟨name, .unsigned64⟩ Nat.cast text (naturalField name text) := by
  unfold naturalField
  cases hread : IntegerRange.unsigned64.read text with
  | ok n =>
    have hn := IntegerRange.unsigned64_read_iff.1 hread
    have hcast : (n.toNat : Int) = n := by
      cases hn with
      | intro _ _ _ hle _ => exact Int.toNat_of_nonneg hle
    exact .ok (hcast.symm ▸ hn)
  | error fault =>
    refine .error fun ⟨n, hn⟩ => ?_
    rw [IntegerRange.unsigned64_read_iff.2 hn] at hread
    cases hread

/-- The number of walks: a natural number, which must not be too large. -/
def walkCount (text : String) : Except CommandError Nat := do
  let count ← naturalField "walk_count" text
  if 0x100000000 ≤ count then throw (.invalidValue "walk_count" text "too large")
  return count

theorem reads_walkCount (text : String) :
    Column.Reads ⟨"walk_count", .unsigned32⟩ Nat.cast text (walkCount text) := by
  unfold walkCount
  have hreads := reads_naturalField "walk_count" text
  generalize naturalField "walk_count" text = read at hreads
  cases hreads with
  | @ok count hcount =>
    by_cases hlarge : 0x100000000 ≤ count
    · have hrefused : ¬ Column.Accepts ⟨"walk_count", .unsigned32⟩ text := by
        rintro ⟨n, hn⟩
        obtain ⟨hn, hlt⟩ := IntegerRange.unsigned32_spells_iff.1 hn
        obtain rfl := hn.unique (by decide) (by decide) hcount
        omega
      show Column.Reads _ _ text (if 0x100000000 ≤ count then _ else _)
      rw [if_pos hlarge]
      exact .error hrefused
    · have hspells := IntegerRange.unsigned32_spells_iff.2 ⟨hcount, by omega⟩
      show Column.Reads _ _ text (if 0x100000000 ≤ count then _ else _)
      rw [if_neg hlarge]
      exact .ok hspells
  | error hrefused =>
    exact .error fun ⟨n, hn⟩ => hrefused ⟨n, (IntegerRange.unsigned32_spells_iff.1 hn).1⟩

theorem parseShort_eq {line walks steps depth width : String}
    (h : fields line = [walks, steps, depth, width]) : parseShort line = (do
      let walks ← walkCount walks
      let steps ← integerField "step_count" steps
      let depth ← integerField "search_depth" depth
      let width ← naturalField "search_width" width
      return ⟨.greedyWalks walks ⟨steps, depth, width, .loopNest⟩, {}⟩) := by
  unfold parseShort walkCount
  rw [h]
  dsimp only
  cases naturalField "walk_count" walks with
  | error err => rfl
  | ok count =>
    simp only [bind, Except.bind]
    split <;> rfl

/-! ## Answers -/

/-- The walks that four fields ask for, in the mode of the nest and with no option given. -/
inductive Asks : List String → SearchRequest → Prop
  | intro {walksText stepsText depthText widthText : String} {walks width : Nat}
      {steps depth : Int} :
      IntegerRange.unsigned32.Spells walksText walks →
      IntegerRange.signed64.Spells stepsText steps →
      IntegerRange.signed64.Spells depthText depth →
      IntegerRange.unsigned64.Spells widthText width →
      Asks [walksText, stepsText, depthText, widthText]
        ⟨.greedyWalks walks ⟨steps, depth, width, .loopNest⟩, {}⟩

/-- What the fields of a short form ask for, or which fault is reported. -/
inductive ShortAnswer (texts : List String) : Except CommandError SearchRequest → Prop
  | request {request : SearchRequest} : Asks texts request → ShortAnswer texts (.ok request)
  | arity : texts.length ≠ 4 → ShortAnswer texts (.error (.legacyArity 4 texts.length))
  | offends {name text detail : String} : texts.length = 4 → Offends columns texts name text →
      ShortAnswer texts (.error (.invalidValue name text detail))

/-- The fields are read from the left, each as its column says. -/
theorem parseShort_answer (line : String) : ShortAnswer (fields line) (parseShort line) := by
  match hfields : fields line with
  | [walksText, stepsText, depthText, widthText] =>
    rw [parseShort_eq hfields]
    have hwalks := reads_walkCount walksText
    have hsteps := reads_integerField "step_count" stepsText
    have hdepth := reads_integerField "search_depth" depthText
    have hwidth := reads_naturalField "search_width" widthText
    generalize walkCount walksText = walksRead at hwalks
    generalize integerField "step_count" stepsText = stepsRead at hsteps
    generalize integerField "search_depth" depthText = depthRead at hdepth
    generalize naturalField "search_width" widthText = widthRead at hwidth
    cases hwalks with
    | error hrefused => exact .offends rfl (.here hrefused)
    | ok hwalks =>
      cases hsteps with
      | error hrefused => exact .offends rfl (.later ⟨_, hwalks⟩ (.here hrefused))
      | ok hsteps =>
        cases hdepth with
        | error hrefused =>
          exact .offends rfl (.later ⟨_, hwalks⟩ (.later ⟨_, hsteps⟩ (.here hrefused)))
        | ok hdepth =>
          cases hwidth with
          | error hrefused =>
            exact .offends rfl (.later ⟨_, hwalks⟩ (.later ⟨_, hsteps⟩ (.later ⟨_, hdepth⟩
              (.here hrefused))))
          | ok hwidth => exact .request (.intro hwalks hsteps hdepth hwidth)
  | [] | [_] | [_, _] | [_, _, _] | _ :: _ :: _ :: _ :: _ :: _ =>
    rw [parseShort, hfields]
    exact .arity (by simp)

theorem Asks.length_eq {texts : List String} {request : SearchRequest} (h : Asks texts request) :
    texts.length = 4 := by
  cases h
  rfl

/-- A field that its column does not accept leaves nothing to ask for. -/
theorem Asks.not_offends {texts : List String} {request : SearchRequest} (h : Asks texts request)
    {name text : String} : ¬ Offends columns texts name text := by
  cases h with
  | intro hwalks hsteps hdepth hwidth =>
    rintro (hrefused | ⟨-, hrefused | ⟨-, hrefused | ⟨-, hrefused | ⟨-, ⟨⟩⟩⟩⟩⟩)
    · exact hrefused ⟨_, hwalks⟩
    · exact hrefused ⟨_, hsteps⟩
    · exact hrefused ⟨_, hdepth⟩
    · exact hrefused ⟨_, hwidth⟩

/-- Four fields ask for one request at most. -/
theorem Asks.unique {texts : List String} {request other : SearchRequest}
    (h : Asks texts request) (hother : Asks texts other) : request = other := by
  cases h with
  | intro hwalks hsteps hdepth hwidth =>
    cases hother with
    | intro hwalks' hsteps' hdepth' hwidth' =>
      have hwalks := hwalks.unique (by decide) (by decide) hwalks'
      have hwidth := hwidth.unique (by decide) (by decide) hwidth'
      obtain rfl := hsteps.unique (by decide) (by decide) hsteps'
      obtain rfl := hdepth.unique (by decide) (by decide) hdepth'
      obtain rfl := Int.ofNat.inj hwalks
      obtain rfl := Int.ofNat.inj hwidth
      rfl

/-- **A line with a comma** asks for walks exactly if it has four fields and each is an integer of
    its column.  Any other number of fields is reported; of four fields the first that is not
    accepted is, with the name of its column. -/
theorem parse_commas {line : String} (hcomma : ',' ∈ line.toList) :
    ∃ texts, (∀ others, Fields line others ↔ others = texts) ∧
      (∀ request, parse .greedy line = .ok request ↔ Asks texts request) ∧
      (texts.length ≠ 4 → parse .greedy line = .error (.legacyArity 4 texts.length)) ∧
      (texts.length = 4 → (¬ ∃ request, Asks texts request) →
        ∃ name text detail, Offends columns texts name text ∧
          parse .greedy line = .error (.invalidValue name text detail)) := by
  have hparse : parse .greedy line = parseShort line := by
    unfold parse
    rw [if_pos ⟨rfl, hcomma⟩]
  rw [hparse]
  have hanswer := parseShort_answer line
  generalize parseShort line = answer at hanswer
  refine ⟨fields line, fun others => fields_iff, ?_⟩
  cases hanswer with
  | @request request hasks =>
    refine ⟨fun other => ⟨?_, ?_⟩, fun hlength => absurd hasks.length_eq hlength,
      fun _ hnone => absurd ⟨request, hasks⟩ hnone⟩
    · rintro ⟨⟩
      exact hasks
    · intro hother
      rw [hasks.unique hother]
  | arity hlength =>
    refine ⟨fun other => ⟨?_, ?_⟩, fun _ => rfl, fun hfour => absurd hfour hlength⟩
    · rintro ⟨⟩
    · exact fun hother => absurd hother.length_eq hlength
  | @offends name text detail hlength hoffends =>
    refine ⟨fun other => ⟨?_, ?_⟩, fun hne => absurd hlength hne,
      fun _ _ => ⟨name, text, detail, hoffends, rfl⟩⟩
    · rintro ⟨⟩
    · exact fun hother => absurd hoffends hother.not_offends

/-- Signs, leading zeros, and blanks that nobody would choose. -/
theorem parse_commas_signed :
    ',' ∈ "\t+004 ,-10,  +2,3\n".toList ∧ Asks ["+004", "-10", "+2", "3"]
      ⟨.greedyWalks 4 ⟨-10, 2, 3, .loopNest⟩, {}⟩ ∧
      parse .greedy "\t+004 ,-10,  +2,3\n" = .ok ⟨.greedyWalks 4 ⟨-10, 2, 3, .loopNest⟩, {}⟩ := by
  have hcomma : ',' ∈ "\t+004 ,-10,  +2,3\n".toList := by decide
  have hasks : Asks ["+004", "-10", "+2", "3"] ⟨.greedyWalks 4 ⟨-10, 2, 3, .loopNest⟩, {}⟩ :=
    .intro ((IntegerRange.read_eq_ok_iff (by decide) (by decide)).1 (by decide))
      (IntegerRange.signed64_read_iff.1 (by decide)) (IntegerRange.signed64_read_iff.1 (by decide))
      (IntegerRange.unsigned64_read_iff.1 (by decide))
  obtain ⟨texts, hfields, hparse, -⟩ := parse_commas hcomma
  have htexts : ["+004", "-10", "+2", "3"] = texts := (hfields _).1 (fields_iff.2 (by decide))
  exact ⟨hcomma, hasks, (hparse _).2 (htexts ▸ hasks)⟩

/-- The first of three bad fields is reported. -/
example : parse .greedy "4,0x2,4294967296," =
    .error (.invalidValue "step_count" "0x2" "expected an integer") := by
  decide

end Command

end ScheduleSearch

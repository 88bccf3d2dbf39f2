/-
  What the error of a command takes from a fault.

  A fault shows arguments in several shapes, and the error is to give the bare names of the
  flags; of the message it keeps the first line.

  * `PlainName`: the names that are found again in every shape (`PlainName.flagName_eq`), so in
    the usage of a flag (`flagName_usage`) and in a token of it (`flagName_token`);
  * `ofFault_missing`, `ofFault_duplicate`, `ofFault_unknown`, `ofFault_stray`: the errors with
    these names;
  * `OneLine`: texts without line breaks; the reasons why a flag does not read such a text are
    texts of this kind (`FlagKind.oneLine_of_read`);
  * **`ofFault_badValue`**: so the error for a value has the name of the flag, the value, and all
    of the message.
-/
import ScheduleSearch.Proofs.CommandLine

namespace ScheduleSearch

variable {c : Char} {s t : String}

/-! ## Lines -/

namespace Text

/-- There is no line break in the text. -/
def OneLine (s : String) : Prop :=
  ∀ c ∈ s.toList, c ≠ '\n' ∧ c ≠ '\r'

instance (s : String) : Decidable (OneLine s) :=
  List.decidableBAll (fun c => c ≠ '\n' ∧ c ≠ '\r') s.toList

theorem oneLine_append : OneLine (s ++ t) ↔ OneLine s ∧ OneLine t := by
  simp only [OneLine, String.toList_append, List.forall_mem_append]

/-- No line break comes into the visible part of a text. -/
theorem OneLine.visible (h : OneLine s) : OneLine (Text.visible s) := by
  intro c hc
  rw [Text.visible, String.toList_ofList] at hc
  exact h c ((visibleChars_sublist .plain s.toList).subset hc)

/-- A line is cut off before its line break. -/
theorem OneLine.firstLine_append (h : OneLine s) : firstLine (s ++ "\n") = s := by
  have hline : (s ++ "\n").toList.takeWhile (· ≠ '\n') = s.toList := by
    rw [String.toList_append, List.takeWhile_append_of_pos fun c hc => decide_eq_true (h c hc).1]
    simp
  have hlast : s.toList.getLast? ≠ some '\r' := fun hlast =>
    (h '\r' (List.mem_of_getLast? hlast)).2 rfl
  unfold firstLine
  simp only [hline, hlast, and_false, if_false, String.ofList_toList]

/-- A word of a line has no line break. -/
theorem oneLine_of_mem_words {line : String} (h : s ∈ words line) : OneLine s := by
  obtain ⟨run, hrun, rfl⟩ := List.mem_map.1 h
  intro c hc
  rw [String.toList_ofList] at hc
  have hplain := not_separator_of_mem_pieces (List.mem_filter.1 hrun).1 c hc
  constructor
  all_goals
    rintro rfl
    cases hplain

end Text

open Text (OneLine oneLine_append)

/-! ## Names -/

namespace Command

variable {flags : List Flag} {f : Flag} {name : String}

/-- A name that is found again where it is shown: it does not begin with a hyphen, and has no
    character at which the name ends. -/
structure PlainName (name : String) : Prop where
  ne_empty : name ≠ ""
  first : name.toList.head? ≠ some '-'
  whole : ∀ c ∈ name.toList, c ≠ ' ' ∧ c ≠ '=' ∧ c ≠ '<' ∧ c ≠ '['

/-- **A plain name** is found again behind two dashes, if nothing follows or a character at which
    names end. -/
theorem PlainName.flagName_eq (h : PlainName name) {argument : String} (rest : List Char)
    (hargument : argument.toList = '-' :: '-' :: (name.toList ++ rest))
    (hrest : ∀ c ∈ rest.head?, c = ' ' ∨ c = '=' ∨ c = '<' ∨ c = '[') :
    flagName argument = name := by
  have hdrop : argument.toList.dropWhile (· = '-') = name.toList ++ rest := by
    rw [hargument, List.dropWhile_cons_of_pos rfl, List.dropWhile_cons_of_pos rfl]
    cases hchars : name.toList with
    | nil => exact absurd (String.toList_eq_nil_iff.1 hchars) h.ne_empty
    | cons c cs =>
      have hc : c ≠ '-' := by
        rintro rfl
        exact h.first (by rw [hchars]; rfl)
      rw [List.cons_append, List.dropWhile_cons_of_neg (by simpa using hc)]
  have hstop : rest.takeWhile (fun c => c ≠ ' ' ∧ c ≠ '=' ∧ c ≠ '<' ∧ c ≠ '[') = [] := by
    cases rest with
    | nil => rfl
    | cons c rest =>
      refine List.takeWhile_cons_of_neg ?_
      rcases hrest c rfl with rfl | rfl | rfl | rfl <;> decide
  rw [flagName, hdrop, List.takeWhile_append_of_pos fun c hc => decide_eq_true (h.whole c hc),
    hstop, List.append_nil, String.ofList_toList]

/-- `--name=text`. -/
def assignment (name text : String) : String :=
  "--" ++ name ++ "=" ++ text

/-- The token of a flag, with a value after `=` or without one. -/
inductive FlagToken (name : String) : String → Prop
  | bare : FlagToken name ("--" ++ name)
  | assignment (text : String) : FlagToken name (assignment name text)

theorem flagName_token (h : PlainName name) {token : String} (htoken : FlagToken name token) :
    flagName token = name := by
  cases htoken with
  | bare => exact h.flagName_eq [] (by simp) nofun
  | assignment text =>
    exact h.flagName_eq ('=' :: text.toList) (by simp [assignment]) (by simp)

theorem flagName_usage (h : PlainName f.name) : flagName f.usage = f.name := by
  unfold Flag.usage
  dsimp only
  split
  · exact h.flagName_eq ('[' :: _) (by simp; rfl) (by simp)
  · exact h.flagName_eq (' ' :: _) (by simp; rfl) (by simp)

/-- The names of flags that can be told apart are plain. -/
theorem Distinct.plainName (h : Distinct flags) (hf : f ∈ flags) : PlainName f.name where
  ne_empty := h.ne_empty f hf
  first hfirst := by
    have halnum := h.alphanum f hf '-' (List.mem_of_mem_head? hfirst)
    cases halnum
  whole c hc := by
    have halnum := h.alphanum f hf c hc
    refine ⟨?_, ?_, ?_, ?_⟩
    all_goals
      rintro rfl
      cases halnum

/-! ## Errors with names -/

/-- Of the flags that are missing the first is named. -/
theorem ofFault_missing (h : PlainName f.name) (others : List Flag) :
    CommandError.ofFault (.missing ((f :: others).map Flag.usage)) = .missingFlag f.name :=
  congrArg CommandError.missingFlag (flagName_usage h)

theorem ofFault_duplicate (h : PlainName f.name) :
    CommandError.ofFault (.duplicate f.usage) = .duplicateFlag f.name :=
  congrArg CommandError.duplicateFlag (flagName_usage h)

/-- Two dashes tell flags from other arguments that are not expected. -/
theorem ofFault_unknown_eq (token : String) :
    CommandError.ofFault (.unknown token) =
      if "--".toList.isPrefixOf token.toList then .unknownFlag (flagName token)
      else .malformedToken token :=
  rfl

/-- An argument with two dashes is a flag. -/
theorem ofFault_unknown (h : PlainName name) {token : String} (htoken : FlagToken name token) :
    CommandError.ofFault (.unknown token) = .unknownFlag name := by
  have hdashes : "--".toList.isPrefixOf token.toList = true := by
    cases htoken with
    | bare => simp
    | assignment text => simp [assignment]
  rw [ofFault_unknown_eq, if_pos hdashes, flagName_token h htoken]

/-- An argument without a dash is no flag, and is given whole. -/
theorem ofFault_stray {token : String} (htoken : token.toList.head? ≠ some '-') :
    CommandError.ofFault (.unknown token) = .malformedToken token := by
  have hdashes : "--".toList.isPrefixOf token.toList = false := by
    cases hchars : token.toList with
    | nil => rfl
    | cons c cs =>
      rw [hchars] at htoken
      have hc : ('-' == c) = false := by
        rw [beq_eq_false_iff_ne]
        rintro rfl
        exact htoken rfl
      show ('-' == c && _) = false
      rw [hc, Bool.false_and]
  rw [ofFault_unknown_eq, if_neg (by rw [hdashes]; exact Bool.false_ne_true)]

/-! ## Errors with details -/

/-- The usages of the flags of a key have one line. -/
theorem oneLine_usage (key : SearchKey) : ∀ f ∈ Command.flags key, OneLine f.usage := by
  cases key <;> decide +kernel

theorem map_mapError_eq_error {ε ε' β γ : Type} {x : Except ε β} {g : ε → ε'} {k : β → γ}
    {err : ε'} (h : (x.mapError g).map k = .error err) : ∃ cause, x = .error cause ∧ g cause = err := by
  cases x with
  | error cause => exact ⟨cause, rfl, Except.error.inj h⟩
  | ok y => cases h

theorem oneLine_integerFault (fault : IntegerFault) : OneLine fault.message := by
  cases fault <;> decide +kernel

/-- The reason why a text of one line is no mode repeats it. -/
theorem oneLine_modeFault {err : EvalError} (ht : OneLine t) (h : EvalMode.ofName t = .error err) :
    OneLine err.message := by
  obtain rfl : err = .unknownMode t := by
    unfold EvalMode.ofName at h
    split at h
    all_goals cases h
    rfl
  exact oneLine_append.2 ⟨oneLine_append.2 ⟨by decide, ht⟩, by decide⟩

theorem oneLine_readSeconds {why : String} (h : readSeconds t = .error why) : OneLine why := by
  unfold readSeconds at h
  split at h
  · cases h
    decide
  · next l _ =>
    cases hduration : Duration.ofSeconds l.toFloat with
    | ok d =>
      rw [hduration] at h
      cases h
    | error fault =>
      rw [hduration] at h
      cases h
      cases fault <;> decide +kernel

/-- The reason why a flag does not read a text of one line has one line. -/
theorem FlagKind.oneLine_of_read {kind : FlagKind} {why : String} (ht : OneLine t)
    (h : kind.read t = .error why) : OneLine why := by
  cases kind with
  | count =>
    obtain ⟨fault, -, rfl⟩ := map_mapError_eq_error h
    exact oneLine_integerFault fault
  | natural =>
    obtain ⟨fault, -, rfl⟩ := map_mapError_eq_error h
    exact oneLine_integerFault fault
  | mode =>
    obtain ⟨err, herr, rfl⟩ := map_mapError_eq_error h
    exact oneLine_modeFault ht herr
  | seconds =>
    have h : (readSeconds t).map FlagValue.duration = .error why := h
    cases hread : readSeconds t with
    | ok d =>
      rw [hread] at h
      cases h
    | error cause =>
      rw [hread] at h
      obtain rfl := Except.error.inj h
      exact oneLine_readSeconds hread
  | switch =>
    simp only [FlagKind.read] at h
    split at h
    · cases h
    · cases h
      decide

/-- **A value that a flag does not read** is given with the name of the flag and the whole
    message. -/
theorem ofFault_badValue (hname : PlainName f.name) (husage : OneLine f.usage) {why : String}
    (ht : OneLine t) (h : f.kind.read t = .error why) :
    CommandError.ofFault (.badValue f.usage t why) = .invalidValue f.name t
      s!"error: invalid value '{Text.visible t}' for '{f.usage}': {Text.visible why}" := by
  have hmessage : OneLine
      s!"error: invalid value '{Text.visible t}' for '{f.usage}': {Text.visible why}" := by
    have hwhy := FlagKind.oneLine_of_read ht h
    exact oneLine_append.2 ⟨oneLine_append.2 ⟨oneLine_append.2 ⟨oneLine_append.2
      ⟨oneLine_append.2 ⟨by decide, ht.visible⟩, by decide⟩, husage⟩, by decide⟩, hwhy.visible⟩
  exact congrArg₂ (CommandError.invalidValue · t ·) (flagName_usage hname)
    hmessage.firstLine_append

end Command

end ScheduleSearch

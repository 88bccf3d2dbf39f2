/-
  Faults of edited commands.

  A command gives each of its flags the value after `=`.  It is then changed in one place, and the
  fault that is reported says what is wrong.

  * `entries_of_readTokens`: tokens `--name=text` are read only if they give different flags
    values of their kinds;
  * `readTokens_rejected`, `readTokens_repeated`, `readTokens_unknown`, `readTokens_stray`: the
    tokens that end the reading, each with its fault;
  * `check_missing`: of the flags without a default the first that is not given is shown;
  * `FlagLine`, `Edit`: the commands, and the changes with what each makes wrong;
  * **`parse_edited`**: so this is the error of the edited command, wherever the change is made;
  * `edits_misnamed`: a comma in a greedy search, and hyphens at the front of a name, lead
    elsewhere.
-/
import ScheduleSearch.Proofs.FaultNames

namespace ScheduleSearch.Command

variable {flags : List Flag} {f : Flag} {given : Given} {text why : String}

/-! ## Tokens -/

theorem Distinct.flagToken?_assignment (h : Distinct flags) (hf : f ∈ flags) (text : String) :
    flagToken? (assignment f.name text) = some (f.name, some text) :=
  flagToken?_of_toList (h.equals_not_mem hf) (by simp [assignment])

theorem assignment_ne (name text : String) : assignment name text ≠ "--" := by
  intro hdashes
  have hchars := congrArg String.toList hdashes
  simp [assignment] at hchars

/-- A flag with a value after `=`. -/
def Entry.assigned (f : Flag) (text : String) (value : FlagValue)
    (h : f.kind.read text = .ok value) : Entry :=
  ⟨f, some text, value, nofun, h⟩

/-- A flag is known by its token. -/
theorem Distinct.name_eq (h : Distinct flags) (hf : f ∈ flags) {e : Entry} (he : e.flag ∈ flags)
    (htoken : e.token = assignment f.name text) : e.name = f.name := by
  have hflag := h.flagToken?_assignment hf text
  rw [← htoken, h.flagToken?_token he] at hflag
  exact congrArg Prod.fst (Option.some.inj hflag)

/-! ## Giving values -/

/-- A flag that was given already is not given again, whatever the text. -/
theorem add_repeated (h : f.name ∈ given.map (·.1)) (text : String) :
    given.add f text = .error (.duplicate f.usage) := by
  unfold Given.add
  rw [if_pos (Option.isSome_iff_ne_none.2 fun hnone => lookup_eq_none.1 hnone h)]

theorem add_new (h : f.name ∉ given.map (·.1)) (text : String) :
    given.add f text = (f.read text).map fun value => given ++ [(f.name, value)] := by
  unfold Given.add
  rw [lookup_eq_none.2 h, if_neg nofun]
  cases f.read text <;> rfl

/-- A flag that is given a value was not given before, and its kind reads the text. -/
theorem add_eq_ok {result : Given} (h : given.add f text = .ok result) :
    f.name ∉ given.map (·.1) ∧
      ∃ value, f.kind.read text = .ok value ∧ result = given ++ [(f.name, value)] := by
  by_cases hmem : f.name ∈ given.map (·.1)
  · rw [add_repeated hmem] at h
    cases h
  · rw [add_new hmem, Flag.read] at h
    cases hread : f.kind.read text with
    | error why =>
      rw [hread] at h
      cases h
    | ok value =>
      rw [hread] at h
      exact ⟨hmem, value, rfl, (Except.ok.inj h).symm⟩

theorem readTokens_assignment (h : Distinct flags) (hf : f ∈ flags) (given : Given)
    (text : String) (rest : List String) :
    readTokens flags given none (assignment f.name text :: rest) =
      (given.add f text).bind fun given => readTokens flags given none rest := by
  conv_lhs => unfold readTokens
  rw [if_neg (assignment_ne f.name text), h.flagToken?_assignment hf]
  simp only [h.find? hf, Given.settle]
  cases given.add f text <;> rfl

/-- **Tokens that are read** give different flags values of their kinds. -/
theorem entries_of_readTokens (h : Distinct flags) {words : List String} {result : Given}
    (hwords : ∀ word ∈ words, ∃ f ∈ flags, ∃ text, word = assignment f.name text)
    (hgiven : (given.map (·.1)).Nodup) (hread : readTokens flags given none words = .ok result) :
    ∃ es : List Entry, words = es.map Entry.token ∧ (∀ e ∈ es, e.flag ∈ flags) ∧
      (given.map (·.1) ++ es.map Entry.name).Nodup ∧ result = given ++ es.map Entry.given := by
  induction words generalizing given with
  | nil =>
    refine ⟨[], rfl, nofun, by simpa using hgiven, ?_⟩
    rw [List.map_nil, List.append_nil]
    exact (Except.ok.inj hread).symm
  | cons word words ih =>
    obtain ⟨⟨f, hf, text, rfl⟩, hrest⟩ := List.forall_mem_cons.1 hwords
    rw [readTokens_assignment h hf] at hread
    cases hadd : given.add f text with
    | error err =>
      rw [hadd] at hread
      cases hread
    | ok next =>
      rw [hadd] at hread
      obtain ⟨hnew, value, hvalue, rfl⟩ := add_eq_ok hadd
      have hnodup : ((given ++ [(f.name, value)]).map (·.1)).Nodup := by
        rw [List.map_append, List.nodup_append]
        refine ⟨hgiven, List.nodup_singleton _, fun name hname other hother => ?_⟩
        have heq : other = f.name := List.mem_singleton.1 hother
        rw [heq]
        exact fun hsame => hnew (hsame ▸ hname)
      obtain ⟨es, rfl, hes, hnames, rfl⟩ := ih hrest hnodup hread
      refine ⟨.assigned f text value hvalue :: es, rfl,
        List.forall_mem_cons.2 ⟨hf, hes⟩, ?_, ?_⟩
      · simpa [Entry.assigned, Entry.name] using hnames
      · simp [Entry.assigned, Entry.given, Entry.name]

/-- Values for different flags. -/
structure Once (flags : List Flag) (es : List Entry) : Prop where
  known : ∀ e ∈ es, e.flag ∈ flags
  nodup : (es.map Entry.name).Nodup

section Once

variable {es xs ys : List Entry} {e : Entry}

theorem Once.sublist (h : Once flags es) (hxs : xs.Sublist es) : Once flags xs where
  known e he := h.known e (hxs.subset he)
  nodup := h.nodup.sublist (hxs.map Entry.name)

theorem once_middle : Once flags (xs ++ e :: ys) ↔
    e.flag ∈ flags ∧ e.name ∉ (xs ++ ys).map Entry.name ∧ Once flags (xs ++ ys) := by
  have hnodup : ((xs ++ e :: ys).map Entry.name).Nodup ↔
      e.name ∉ (xs ++ ys).map Entry.name ∧ ((xs ++ ys).map Entry.name).Nodup := by
    rw [List.map_append, List.map_cons, List.nodup_middle, List.nodup_cons, List.map_append]
  have hknown : (∀ d ∈ xs ++ e :: ys, d.flag ∈ flags) ↔
      e.flag ∈ flags ∧ ∀ d ∈ xs ++ ys, d.flag ∈ flags := by
    simp only [List.forall_mem_append, List.forall_mem_cons]
    exact and_left_comm
  constructor
  · rintro ⟨h, h'⟩
    exact ⟨(hknown.1 h).1, (hnodup.1 h').1, (hknown.1 h).2, (hnodup.1 h').2⟩
  · rintro ⟨he, hnew, h, h'⟩
    exact ⟨hknown.2 ⟨he, h⟩, hnodup.2 ⟨hnew, h'⟩⟩

/-- Values for different flags are read. -/
theorem Once.read (hes : Once flags es) (h : Distinct flags) (rest : List String) :
    readTokens flags [] none (es.map Entry.token ++ rest) =
      readTokens flags (es.map Entry.given) none rest :=
  readTokens_entries h hes.known [] hes.nodup rest

theorem names_given (es : List Entry) : (es.map Entry.given).map (·.1) = es.map Entry.name := by
  rw [List.map_map]
  rfl

/-- A value is found under its own name only. -/
theorem lookup_middle {name : String} (h : name ≠ e.name) :
    ((xs ++ e :: ys).map Entry.given).lookup name = ((xs ++ ys).map Entry.given).lookup name := by
  have hcons : (e.given :: ys.map Entry.given).lookup name =
      (ys.map Entry.given).lookup name := by
    rw [Entry.given, List.lookup_cons, beq_false_of_ne h]
  rw [List.map_append, List.map_cons, List.lookup_append, hcons, List.map_append,
    List.lookup_append]

theorem split_at_token {token : String} {before after : List String}
    (h : es.map Entry.token = before ++ token :: after) :
    ∃ xs e ys, es = xs ++ e :: ys ∧ before = xs.map Entry.token ∧ token = e.token ∧
      after = ys.map Entry.token := by
  obtain ⟨xs, zs, rfl, rfl, hzs⟩ := List.map_eq_append_iff.1 h
  obtain ⟨e, ys, rfl, rfl, rfl⟩ := List.map_eq_cons_iff.1 hzs
  exact ⟨xs, e, ys, rfl, rfl, rfl, rfl⟩

end Once

/-! ## Tokens that end the reading -/

/-- The text is no value of the flag. -/
theorem readTokens_rejected (h : Distinct flags) (hf : f ∈ flags)
    (hnew : f.name ∉ given.map (·.1)) (hread : f.kind.read text = .error why)
    (rest : List String) :
    readTokens flags given none (assignment f.name text :: rest) =
      .error (.badValue f.usage text why) := by
  rw [readTokens_assignment h hf, add_new hnew, Flag.read, hread]
  rfl

/-- The flag was given already. -/
theorem readTokens_repeated (h : Distinct flags) (hf : f ∈ flags)
    (hold : f.name ∈ given.map (·.1)) (text : String) (rest : List String) :
    readTokens flags given none (assignment f.name text :: rest) =
      .error (.duplicate f.usage) := by
  rw [readTokens_assignment h hf, add_repeated hold]
  rfl

/-- No flag has the name. -/
theorem readTokens_unknown {name token : String} (hname : PlainName name)
    (htoken : FlagToken name token) (hunknown : ∀ f ∈ flags, f.name ≠ name) (given : Given)
    (rest : List String) :
    readTokens flags given none (token :: rest) = .error (.unknown ("--" ++ name)) := by
  have hequals : '=' ∉ name.toList := fun hc => (hname.whole _ hc).2.1 rfl
  obtain ⟨value, hflag⟩ : ∃ value, flagToken? token = some (name, value) := by
    cases htoken with
    | bare => exact ⟨none, flagToken?_of_toList hequals (by simp)⟩
    | assignment text => exact ⟨some text, flagToken?_of_toList hequals (by simp [assignment])⟩
  have hdashes : token ≠ "--" := by
    cases htoken with
    | bare =>
      intro hdashes
      have hchars := congrArg String.toList hdashes
      exact hname.ne_empty (by simpa using hchars)
    | assignment text => exact assignment_ne name text
  have hfind : flags.find? (·.name == name) = none :=
    List.find?_eq_none.2 fun f hf => by simpa using hunknown f hf
  unfold readTokens
  rw [if_neg hdashes, hflag]
  simp only [hfind]

/-- The token is no flag. -/
theorem readTokens_stray {token : String} (htoken : token.toList.head? ≠ some '-') (given : Given)
    (rest : List String) :
    readTokens flags given none (token :: rest) = .error (.unknown token) := by
  have hdashes : token ≠ "--" := by
    rintro rfl
    exact htoken rfl
  have hplain : flagToken? token = none ∧ stray token = .unknown token := by
    unfold flagToken? stray
    constructor
    · split
      · next hchars => exact absurd (by rw [hchars]; rfl) htoken
      · rfl
    · split
      · next hchars => exact absurd (by rw [hchars]; rfl) htoken
      · rfl
  unfold readTokens
  rw [if_neg hdashes, hplain.1]
  simp only [hplain.2]

/-! ## Flags that are missed -/

theorem required_subset (key : SearchKey) : required key ⊆ Command.flags key :=
  fun _ hf => List.mem_append_left _ (List.mem_append_left _ hf)

theorem check_eq_ok_iff {fs : List Flag} :
    given.check fs = .ok () ↔ ∀ f ∈ fs, given.lookup f.name ≠ none := by
  have hfilter : fs.filter (fun f => (given.lookup f.name).isNone) = [] ↔
      ∀ f ∈ fs, given.lookup f.name ≠ none := by
    simp only [List.filter_eq_nil_iff, Option.isNone_iff_eq_none, ne_eq]
  rw [← hfilter]
  unfold Given.check
  split
  · next hnil => simp [hnil]
  · next hne => exact ⟨nofun, fun hnil => absurd hnil hne⟩

/-- A flag that is not given is shown as missing, behind those before it. -/
theorem check_missing {fs : List Flag} (hf : f ∈ fs) (hnone : given.lookup f.name = none) :
    ∃ g others, g ∈ fs ∧ given.lookup g.name = none ∧
      given.check fs = .error (.missing ((g :: others).map Flag.usage)) := by
  have hmem : f ∈ fs.filter fun f => (given.lookup f.name).isNone :=
    List.mem_filter.2 ⟨hf, by rw [hnone]; rfl⟩
  cases hfilter : fs.filter fun f => (given.lookup f.name).isNone with
  | nil =>
    rw [hfilter] at hmem
    cases hmem
  | cons g others =>
    have hg : g ∈ fs.filter fun f => (given.lookup f.name).isNone := by
      rw [hfilter]
      exact List.mem_cons_self
    obtain ⟨hg, hgnone⟩ := List.mem_filter.1 hg
    refine ⟨g, others, hg, Option.isNone_iff_eq_none.1 hgnone, ?_⟩
    rw [Given.check, hfilter]

/-! ## Edited tokens -/

section Edited

variable {xs ys zs : List Entry} {e : Entry}

theorem Once.read_without (h : Once flags (xs ++ ys)) (hdistinct : Distinct flags) :
    readTokens flags [] none (xs.map Entry.token ++ ys.map Entry.token) =
      .ok ((xs ++ ys).map Entry.given) := by
  rw [← List.map_append, ← List.append_nil ((xs ++ ys).map Entry.token), h.read hdistinct]
  rfl

/-- Without the value of a flag, the flag is the first that is missing. -/
theorem Once.check_without {fs : List Flag} (h : Once flags (xs ++ e :: ys))
    (hcheck : Given.check ((xs ++ e :: ys).map Entry.given) fs = .ok ()) (hf : f ∈ fs)
    (hname : e.name = f.name) : ∃ g others, g.name = f.name ∧
      Given.check ((xs ++ ys).map Entry.given) fs =
        .error (.missing ((g :: others).map Flag.usage)) := by
  have hnone : ((xs ++ ys).map Entry.given).lookup f.name = none := by
    rw [lookup_eq_none, names_given, ← hname]
    exact (once_middle.1 h).2.1
  obtain ⟨g, others, hg, hgnone, herror⟩ := check_missing hf hnone
  refine ⟨g, others, ?_, herror⟩
  by_contra hne
  rw [← hname] at hne
  exact check_eq_ok_iff.1 hcheck g hg ((lookup_middle hne).trans hgnone)

/-- Of two values of a flag the second is refused, also if it was the only one before. -/
theorem Once.read_again (h : Once flags (xs ++ (ys ++ e :: zs))) (hdistinct : Distinct flags)
    (d : Entry) (hd : d.flag ∈ flags) (hname : e.name = d.name) {text : String}
    (rest : List String) :
    readTokens flags [] none (xs.map Entry.token ++ d.token ::
      (ys.map Entry.token ++ assignment d.name text :: rest)) = .error (.duplicate d.flag.usage) := by
  rw [← List.append_assoc] at h
  obtain ⟨-, hnew, hrest⟩ := once_middle.1 h
  have hxys := List.sublist_append_left (xs ++ ys) zs
  have hfront : Once flags (xs ++ d :: ys) := by
    refine once_middle.2 ⟨hd, fun hmem => hnew ?_, hrest.sublist hxys⟩
    rw [hname]
    exact (hxys.map Entry.name).subset hmem
  have hold : d.name ∈ ((xs ++ d :: ys).map Entry.given).map (·.1) := by
    rw [names_given]
    exact List.mem_map_of_mem (List.mem_append_right xs List.mem_cons_self)
  have htokens : xs.map Entry.token ++ d.token :: (ys.map Entry.token ++
      assignment d.name text :: rest) =
        (xs ++ d :: ys).map Entry.token ++ assignment d.name text :: rest := by
    simp
  rw [htokens, hfront.read hdistinct]
  exact readTokens_repeated hdistinct hd hold text rest

end Edited

/-! ## Commands -/

/-- A command of the key that gives each of its flags the value after `=`. -/
structure FlagLine (key : SearchKey) (line : String) : Prop where
  accepted : ∃ request, parse key line = .ok request
  assigns : ∀ word ∈ Text.words line, ∃ f ∈ Command.flags key, ∃ text,
    word = assignment f.name text
  no_comma : key = .greedy → ',' ∉ line.toList

theorem parse_flags {key : SearchKey} {line : String} (h : key = .greedy → ',' ∉ line.toList) :
    parse key line = parseFlags key line :=
  if_neg fun hshort => h hshort.1 hshort.2

theorem parse_unread {key : SearchKey} {line : String} {fault : Fault}
    (h : key = .greedy → ',' ∉ line.toList)
    (hread : readLine (Command.flags key) line = .error fault) :
    parse key line = .error (.ofFault fault) := by
  rw [parse_flags h, parseFlags, readFlags, hread]
  rfl

theorem parse_unchecked {key : SearchKey} {line : String} {fault : Fault}
    (h : key = .greedy → ',' ∉ line.toList)
    (hread : readLine (Command.flags key) line = .ok given)
    (hcheck : given.check (required key) = .error fault) :
    parse key line = .error (.ofFault fault) := by
  rw [parse_flags h, parseFlags, readFlags, hread]
  show (given.check (required key) >>= fun _ => _).mapError _ = _
  rw [hcheck]
  rfl

/-- The tokens of a command are those of different flags, and all flags without a default are
    among them. -/
theorem FlagLine.entries {key : SearchKey} {line : String} (h : FlagLine key line) :
    ∃ es : List Entry, Text.words line = es.map Entry.token ∧ Once (Command.flags key) es ∧
      Given.check (es.map Entry.given) (required key) = .ok () := by
  obtain ⟨request, haccepted⟩ := h.accepted
  cases hread : readLine (Command.flags key) line with
  | error fault =>
    rw [parse_unread h.no_comma hread] at haccepted
    cases haccepted
  | ok given =>
    have hnone : (([] : Given).map (·.1)).Nodup := List.nodup_nil
    obtain ⟨es, hwords, hes, hnames, rfl⟩ :=
      entries_of_readTokens (distinct_flags key) h.assigns hnone hread
    refine ⟨es, hwords, ⟨hes, hnames⟩, ?_⟩
    cases hcheck : Given.check (es.map Entry.given) (required key) with
    | ok _ => rfl
    | error fault =>
      rw [parse_unchecked h.no_comma hread hcheck] at haccepted
      cases haccepted

/-- The command is refused at the first token whose reading fails. -/
theorem Once.refused {key : SearchKey} {es : List Entry} {edited : String} {rest : List String}
    {fault : Fault} (h : Once (Command.flags key) es)
    (hcomma : key = .greedy → ',' ∉ edited.toList)
    (hedited : Text.words edited = es.map Entry.token ++ rest)
    (hrest : readTokens (Command.flags key) (es.map Entry.given) none rest = .error fault) :
    parse key edited = .error (.ofFault fault) := by
  refine parse_unread hcomma ?_
  rw [readLine, hedited, h.read (distinct_flags key)]
  exact hrest

/-! ## Edits -/

/-- The tokens of a command are changed in one place, and this is what is wrong with them. -/
inductive Edit (key : SearchKey) : List String → List String → CommandError → Prop
  /-- a flag without a default is taken away -/
  | removed {f : Flag} (before after : List String) (text : String) : f ∈ required key →
      Edit key (before ++ assignment f.name text :: after) (before ++ after) (.missingFlag f.name)
  /-- a flag is given again, with any text, after its first value -/
  | repeatedAfter {f : Flag} {before : List String} (after : List String) {text : String}
      (again : String) : f ∈ Command.flags key → assignment f.name text ∈ before →
      Edit key (before ++ after) (before ++ assignment f.name again :: after)
        (.duplicateFlag f.name)
  /-- a flag is given a value before its first one -/
  | repeatedBefore {f : Flag} (before : List String) {after : List String} {text again : String}
      {value : FlagValue} : f ∈ Command.flags key → assignment f.name text ∈ after →
      f.kind.read again = .ok value →
      Edit key (before ++ after) (before ++ assignment f.name again :: after)
        (.duplicateFlag f.name)
  /-- a flag that the key does not have, with or without a value -/
  | unknown {name token : String} (before after : List String) : PlainName name →
      FlagToken name token → (∀ f ∈ Command.flags key, f.name ≠ name) →
      Edit key (before ++ after) (before ++ token :: after) (.unknownFlag name)
  /-- a token that is no flag -/
  | stray {token : String} (before after : List String) : token.toList.head? ≠ some '-' →
      Edit key (before ++ after) (before ++ token :: after) (.malformedToken token)
  /-- a text that is no value of the flag in place of one that is -/
  | replaced {f : Flag} {text why : String} (before after : List String) (old : String) :
      f ∈ Command.flags key → f.kind.read text = .error why →
      Edit key (before ++ assignment f.name old :: after)
        (before ++ assignment f.name text :: after)
        (.invalidValue f.name text
          s!"error: invalid value '{Text.visible text}' for '{f.usage}': {Text.visible why}")

/-- **An edited command** is refused, and the error says what the edit made wrong. -/
theorem parse_edited {key : SearchKey} {line edited : String} {err : CommandError}
    (hline : FlagLine key line) (hcomma : key = .greedy → ',' ∉ edited.toList)
    (hedit : Edit key (Text.words line) (Text.words edited) err) :
    parse key edited = .error err := by
  have hdistinct := distinct_flags key
  obtain ⟨es, hwords, hes, hcheck⟩ := hline.entries
  generalize hedited : Text.words edited = words at hedit
  rw [hwords] at hedit
  generalize htokens : es.map Entry.token = tokens at hedit
  cases hedit with
  | @removed f before after text hf =>
    obtain ⟨xs, e, ys, rfl, rfl, htoken, rfl⟩ := split_at_token htokens
    have hname := hdistinct.name_eq (required_subset key hf) (once_middle.1 hes).1 htoken.symm
    obtain ⟨g, others, hg, hmissing⟩ := hes.check_without hcheck hf hname
    have hread : readLine (Command.flags key) edited = .ok ((xs ++ ys).map Entry.given) := by
      rw [readLine, hedited]
      exact (once_middle.1 hes).2.2.read_without hdistinct
    have hplain : PlainName g.name := hg ▸ hdistinct.plainName (required_subset key hf)
    rw [parse_unchecked hcomma hread hmissing, ofFault_missing hplain, hg]
  | @repeatedAfter f before after text again hf hmem =>
    obtain ⟨xs, ys, rfl, rfl, rfl⟩ := List.map_eq_append_iff.1 htokens
    obtain ⟨e, he, htoken⟩ := List.mem_map.1 hmem
    have hxs := hes.sublist (List.sublist_append_left xs ys)
    have hold : f.name ∈ (xs.map Entry.given).map (·.1) := by
      rw [names_given, ← hdistinct.name_eq hf (hxs.known e he) htoken]
      exact List.mem_map_of_mem he
    rw [hxs.refused hcomma hedited (readTokens_repeated hdistinct hf hold again _),
      ofFault_duplicate (hdistinct.plainName hf)]
  | @repeatedBefore f before after text again value hf hmem hread =>
    obtain ⟨xs, zs, rfl, rfl, rfl⟩ := List.map_eq_append_iff.1 htokens
    obtain ⟨e, he, htoken⟩ := List.mem_map.1 hmem
    obtain ⟨ys, zs, rfl⟩ := List.append_of_mem he
    have heflag := hes.known e (List.mem_append_right xs he)
    -- the value that was there is now the second of two, and is refused
    have hrefused : readLine (Command.flags key) edited = .error (.duplicate f.usage) := by
      rw [readLine, hedited, List.map_append, List.map_cons, htoken]
      exact hes.read_again hdistinct (.assigned f again value hread) hf
        (hdistinct.name_eq hf heflag htoken) _
    rw [parse_unread hcomma hrefused, ofFault_duplicate (hdistinct.plainName hf)]
  | @unknown name token before after hname htoken hunknown =>
    obtain ⟨xs, ys, rfl, rfl, rfl⟩ := List.map_eq_append_iff.1 htokens
    have hxs := hes.sublist (List.sublist_append_left xs ys)
    rw [hxs.refused hcomma hedited (readTokens_unknown hname htoken hunknown _ _),
      ofFault_unknown hname .bare]
  | @stray token before after htoken =>
    obtain ⟨xs, ys, rfl, rfl, rfl⟩ := List.map_eq_append_iff.1 htokens
    have hxs := hes.sublist (List.sublist_append_left xs ys)
    rw [hxs.refused hcomma hedited (readTokens_stray htoken _ _), ofFault_stray htoken]
  | @replaced f text why before after old hf hread =>
    obtain ⟨xs, e, ys, rfl, rfl, htoken, rfl⟩ := split_at_token htokens
    obtain ⟨he, hnew, hrest⟩ := once_middle.1 hes
    have hxs := List.sublist_append_left xs ys
    have hnew : f.name ∉ (xs.map Entry.given).map (·.1) := by
      rw [names_given, ← hdistinct.name_eq hf he htoken.symm]
      exact fun hmem => hnew ((hxs.map Entry.name).subset hmem)
    have hline : Text.OneLine text := by
      have hword := Text.oneLine_of_mem_words (hedited ▸ List.mem_append_right _ List.mem_cons_self)
      exact (Text.oneLine_append.1 hword).2
    rw [(hrest.sublist hxs).refused hcomma hedited
        (readTokens_rejected hdistinct hf hnew hread _),
      ofFault_badValue (hdistinct.plainName hf) (oneLine_usage key f hf) hline hread]

/-- A flag that no key has, between the flags of a greedy search. -/
theorem parse_edited_unknown :
    let line := "--eval=cost\t--steps=-1  --lookahead=2 --width=+3"
    let edited := "--eval=cost --steps=-1 --dry-run=1 --lookahead=2 --width=+3"
    FlagLine .greedy line ∧ ',' ∉ edited.toList ∧
      Edit .greedy (Text.words line) (Text.words edited) (.unknownFlag "dry-run") ∧
      parse .greedy edited = .error (.unknownFlag "dry-run") := by
  intro line edited
  have hwords : Text.words line = ["--eval=cost", "--steps=-1"] ++ ["--lookahead=2", "--width=+3"] :=
    by decide +kernel
  have hedited : Text.words edited = ["--eval=cost", "--steps=-1"] ++
      assignment "dry-run" "1" :: ["--lookahead=2", "--width=+3"] := by
    decide +kernel
  have hline : FlagLine .greedy line := by
    refine ⟨⟨⟨.greedy ⟨-1, 2, 3, .cost⟩, {}⟩, by decide +kernel⟩, ?_, fun _ => by decide +kernel⟩
    rw [hwords]
    simp only [List.cons_append, List.nil_append, List.forall_mem_cons]
    exact ⟨⟨⟨"eval", .mode⟩, by decide, "cost", rfl⟩, ⟨⟨"steps", .count⟩, by decide, "-1", rfl⟩,
      ⟨⟨"lookahead", .count⟩, by decide, "2", rfl⟩, ⟨⟨"width", .natural⟩, by decide, "+3", rfl⟩,
      nofun⟩
  have hcomma : ',' ∉ edited.toList := by decide +kernel
  have hname : PlainName "dry-run" := ⟨by simp, by simp, by simp⟩
  have hedit : Edit .greedy (Text.words line) (Text.words edited) (.unknownFlag "dry-run") := by
    rw [hwords, hedited]
    exact .unknown _ _ hname (.assignment "1") (by decide)
  exact ⟨hline, hcomma, hedit, parse_edited hline (fun _ => hcomma) hedit⟩

/-- A comma makes a greedy search one of the short form, so that a token with one is not named.
    Hyphens are taken from the front of a name, so that the flag `-steps` is reported as `steps`,
    which the key has. -/
theorem edits_misnamed :
    let line := "--steps=2 --lookahead=1 --width=3 --eval=cost"
    FlagLine .greedy line ∧ Text.words (line ++ " a,b") = Text.words line ++ ["a,b"] ∧
      "a,b".toList.head? ≠ some '-' ∧ parse .greedy (line ++ " a,b") = .error (.legacyArity 4 2) ∧
      FlagLine .random "--steps=2" ∧ (∀ f ∈ Command.flags .random, f.name ≠ "-steps") ∧
      Text.words "--steps=2 ---steps=3" = Text.words "--steps=2" ++ [assignment "-steps" "3"] ∧
      parse .random "--steps=2 ---steps=3" = .error (.unknownFlag "steps") := by
  intro line
  have hwords : Text.words line = ["--steps=2", "--lookahead=1", "--width=3", "--eval=cost"] := by
    decide +kernel
  have hgreedy : FlagLine .greedy line := by
    refine ⟨⟨⟨.greedy ⟨2, 1, 3, .cost⟩, {}⟩, by decide +kernel⟩, ?_, fun _ => by decide +kernel⟩
    rw [hwords]
    simp only [List.forall_mem_cons]
    exact ⟨⟨⟨"steps", .count⟩, by decide, "2", rfl⟩, ⟨⟨"lookahead", .count⟩, by decide, "1", rfl⟩,
      ⟨⟨"width", .natural⟩, by decide, "3", rfl⟩, ⟨⟨"eval", .mode⟩, by decide, "cost", rfl⟩, nofun⟩
  have hrandom : FlagLine .random "--steps=2" := by
    refine ⟨⟨⟨.random ⟨2, .loopNest⟩, {}⟩, by decide +kernel⟩, ?_, nofun⟩
    have hword : Text.words "--steps=2" = ["--steps=2"] := by decide +kernel
    rw [hword]
    exact List.forall_mem_singleton.2 ⟨⟨"steps", .count⟩, by decide, "2", rfl⟩
  exact ⟨hgreedy, by decide +kernel, by decide, by decide +kernel, hrandom, by decide,
    by decide +kernel, by decide +kernel⟩

end ScheduleSearch.Command

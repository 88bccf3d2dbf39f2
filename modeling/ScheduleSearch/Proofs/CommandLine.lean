/-
  Flags that are each written once.

  * `Written`: a value of some kind as it is written, which its kind reads back;
  * `Entry`: a flag with its value, which makes one token; `Slot`: a flag that is given a value,
    or is left out;
  * `readTokens_entries`, `readLine_entries`: tokens of different flags give each flag its
    value, and so does a line of them, however they are spaced;
  * `lookup_slot`: what is then found under the name of a flag does not depend on the order in
    which they were given;
  * **`readLine_slots`**: so a line that gives each flag at most once is read.
-/
import Mathlib.Data.List.Forall2
import Mathlib.Data.List.Nodup
import Mathlib.Data.List.Permutation
import ScheduleSearch.Command.Request
import ScheduleSearch.Proofs.FlagText
import ScheduleSearch.Proofs.Pieces

namespace ScheduleSearch.Command

/-- A value as it is written: the text after `=`, or nothing if a switch stands alone. -/
structure Written (kind : FlagKind) where
  text : Option String
  value : FlagValue
  alone : text = none → kind = .switch
  reads : kind.read (text.getD "true") = .ok value

/-- A flag with its value. -/
structure Entry where
  flag : Flag
  written : Written flag.kind

namespace Entry

def name (e : Entry) : String := e.flag.name

/-- `--name`, or `--name=text`. -/
def token (e : Entry) : String :=
  match e.written.text with
  | none => "--" ++ e.name
  | some text => "--" ++ e.name ++ "=" ++ text

def given (e : Entry) : String × FlagValue :=
  (e.name, e.written.value)

end Entry

/-- A flag that is given a value, or is left out. -/
structure Slot where
  flag : Flag
  written : Option (Written flag.kind)

namespace Slot

def name (s : Slot) : String := s.flag.name

def entry? (s : Slot) : Option Entry :=
  s.written.map (Entry.mk s.flag)

def token? (s : Slot) : Option String :=
  s.entry?.map Entry.token

end Slot

/-- The flags can be told apart, by names of letters and digits. -/
structure Distinct (flags : List Flag) : Prop where
  nodup : (flags.map (·.name)).Nodup
  ne_empty : ∀ f ∈ flags, f.name ≠ ""
  alphanum : ∀ f ∈ flags, ∀ c ∈ f.name.toList, c.isAlphanum = true

/-- The flags of every key can be told apart. -/
theorem distinct_flags (key : SearchKey) : Distinct (flags key) where
  nodup := by cases key <;> simp [flags, required, defaulted, optionFlags]
  ne_empty := by cases key <;> simp [flags, required, defaulted, optionFlags]
  alphanum := by cases key <;> simp [flags, required, defaulted, optionFlags, Char.isAlphanum]

variable {flags : List Flag} {e : Entry} {es : List Entry}

theorem Distinct.find? (h : Distinct flags) {f : Flag} (hf : f ∈ flags) :
    flags.find? (·.name == f.name) = some f := by
  cases hfind : flags.find? (·.name == f.name) with
  | none =>
    have hno := List.find?_eq_none.1 hfind f hf
    simp at hno
  | some g =>
    have hname : g.name = f.name := by simpa using List.find?_some hfind
    rw [List.inj_on_of_nodup_map h.nodup (List.mem_of_find?_eq_some hfind) hf hname]

/-! ## Tokens -/

theorem toList_token (e : Entry) : e.token.toList =
    '-' :: '-' :: (e.name.toList ++ (e.written.text.elim [] fun text => '=' :: text.toList)) := by
  unfold Entry.token
  cases e.written.text with
  | none => simp
  | some text => simp

theorem Distinct.ink_token (h : Distinct flags) (he : e.flag ∈ flags) :
    ∀ c ∈ e.token.toList, Ink c := by
  have hname : ∀ c ∈ e.name.toList, Ink c := fun c hc => ink_of_isAlphanum (h.alphanum _ he c hc)
  have htext : ∀ c ∈ e.written.text.elim [] (fun text => '=' :: text.toList), Ink c := by
    have hreads := e.written.reads
    cases htext : e.written.text with
    | none => simp
    | some text =>
      rw [htext] at hreads
      exact List.forall_mem_cons.2 ⟨by decide, FlagKind.ink_of_read hreads⟩
  rw [toList_token]
  exact List.forall_mem_cons.2 ⟨by decide, List.forall_mem_cons.2 ⟨by decide,
    List.forall_mem_append.2 ⟨hname, htext⟩⟩⟩

/-- A token is cut at the first `=` after its dashes. -/
theorem flagToken?_of_toList {token name : String} {text : Option String}
    (hname : '=' ∉ name.toList) (h : token.toList =
      '-' :: '-' :: (name.toList ++ (text.elim [] fun text => '=' :: text.toList))) :
    flagToken? token = some (name, text) := by
  have hplain : ∀ c ∈ name.toList, decide (c ≠ '=') = true :=
    fun c hc => decide_eq_true fun heq => hname (heq ▸ hc)
  unfold flagToken?
  rw [h]
  simp only [List.takeWhile_append_of_pos hplain, List.dropWhile_append_of_pos hplain]
  cases text <;> simp

theorem Distinct.equals_not_mem (h : Distinct flags) {f : Flag} (hf : f ∈ flags) :
    '=' ∉ f.name.toList := by
  intro hc
  have halnum := h.alphanum f hf '=' hc
  cases halnum

theorem Distinct.flagToken?_token (h : Distinct flags) (he : e.flag ∈ flags) :
    flagToken? e.token = some (e.name, e.written.text) :=
  flagToken?_of_toList (h.equals_not_mem he) (toList_token e)

theorem Distinct.token_ne (h : Distinct flags) (he : e.flag ∈ flags) : e.token ≠ "--" := by
  intro hdashes
  have hchars := congrArg String.toList hdashes
  rw [toList_token] at hchars
  have hnil : e.name.toList ++ (e.written.text.elim [] fun text => '=' :: text.toList) = [] := by
    simpa using hchars
  exact h.ne_empty _ he (String.toList_eq_nil_iff.1 (List.append_eq_nil_iff.1 hnil).1)

/-! ## Reading -/

theorem lookup_eq_none {given : Given} {name : String} :
    given.lookup name = none ↔ name ∉ given.map (·.1) := by
  rw [List.lookup_eq_none_iff, List.mem_map, not_exists]
  simp only [bne_iff_ne, not_and]
  exact forall₂_congr fun p hp => ne_comm

/-- A flag that was not given before is given its value. -/
theorem add_entry {given : Given} (h : e.name ∉ given.map (·.1)) :
    given.add e.flag (e.written.text.getD "true") = .ok (given ++ [e.given]) := by
  have hnew : given.lookup e.flag.name = none := lookup_eq_none.2 h
  have hread : e.flag.read (e.written.text.getD "true") = .ok e.written.value := by
    rw [Flag.read, e.written.reads]
    rfl
  rw [Given.add, hnew, hread]
  rfl

/-- One token gives its flag a value. -/
theorem readTokens_entry (h : Distinct flags) (he : e.flag ∈ flags) {given : Given}
    (hnew : e.name ∉ given.map (·.1)) (rest : List String) :
    readTokens flags given none (e.token :: rest) =
      readTokens flags (given ++ [e.given]) none rest := by
  have hadd := add_entry hnew
  have hfind : flags.find? (·.name == e.name) = some e.flag := h.find? he
  conv_lhs => unfold readTokens
  rw [if_neg (h.token_ne he), h.flagToken?_token he]
  simp only [hfind, Given.settle]
  cases htext : e.written.text with
  | none =>
    rw [htext, Option.getD_none] at hadd
    simp only [e.written.alone htext, hadd]
  | some text =>
    rw [htext, Option.getD_some] at hadd
    simp only [hadd]

/-- **Tokens of different flags** give each flag its value, whatever stands after them. -/
theorem readTokens_entries (h : Distinct flags) (hes : ∀ e ∈ es, e.flag ∈ flags) (given : Given)
    (hnew : (given.map (·.1) ++ es.map Entry.name).Nodup) (rest : List String) :
    readTokens flags given none (es.map Entry.token ++ rest) =
      readTokens flags (given ++ es.map Entry.given) none rest := by
  induction es generalizing given with
  | nil => simp
  | cons e es ih =>
    have hfresh : e.name ∉ given.map (·.1) := by
      intro hmem
      rw [List.map_cons, List.nodup_append] at hnew
      exact hnew.2.2 _ hmem _ List.mem_cons_self rfl
    have hrest := ih (fun e' he' => hes e' (List.mem_cons_of_mem e he')) (given ++ [e.given])
      (by simpa [Entry.given] using hnew)
    rw [List.map_cons, List.cons_append, readTokens_entry h (hes e List.mem_cons_self) hfresh,
      hrest, List.map_cons, List.append_assoc, List.singleton_append]

theorem readLine_entries (h : Distinct flags) (hes : ∀ e ∈ es, e.flag ∈ flags)
    (hnew : (es.map Entry.name).Nodup) {line : String}
    (hline : Text.Spaced (es.map Entry.token) line.toList) :
    readLine flags line = .ok (es.map Entry.given) := by
  have hwords : Text.words line = es.map Entry.token := by
    refine Text.words_spaced hline fun w hw => ?_
    obtain ⟨e, he, rfl⟩ := List.mem_map.1 hw
    have hink := h.ink_token (hes e he)
    refine ⟨fun hempty => ?_, fun c hc => (hink c hc).not_isBlank⟩
    have hchars := congrArg String.toList hempty
    rw [toList_token] at hchars
    cases hchars
  have hread := readTokens_entries h hes [] (by simpa using hnew) []
  rw [readLine, hwords, ← List.append_nil (es.map Entry.token), hread]
  rfl

/-! ## Slots -/

variable {slots : List Slot} {s : Slot}

/-- Tokens in any order are those of the entries in that order. -/
theorem exists_entries {tokens : List String} (h : tokens.Perm (slots.filterMap Slot.token?)) :
    ∃ es : List Entry, es.Perm (slots.filterMap Slot.entry?) ∧ tokens = es.map Entry.token := by
  have hmap : slots.filterMap Slot.token? = (slots.filterMap Slot.entry?).map Entry.token := by
    rw [List.map_filterMap]
    rfl
  have hall : List.Forall₂ (fun t e => t = Entry.token e)
      ((slots.filterMap Slot.entry?).map Entry.token) (slots.filterMap Slot.entry?) := by
    rw [List.forall₂_map_left_iff, List.forall₂_same]
    exact fun _ _ => rfl
  obtain ⟨es, htokens, hperm⟩ := List.perm_comp_forall₂ (hmap ▸ h) hall
  refine ⟨es, hperm, ?_⟩
  rwa [← List.forall₂_eq_eq_eq, List.forall₂_map_right_iff]

theorem entry?_eq_some (h : s.entry? = some e) : s.name = e.name := by
  obtain ⟨w, -, rfl⟩ := Option.map_eq_some_iff.1 h
  rfl

theorem names_sublist (slots : List Slot) :
    ((slots.filterMap Slot.entry?).map Entry.name).Sublist (slots.map Slot.name) := by
  induction slots with
  | nil => exact .slnil
  | cons s slots ih =>
    cases hs : s.entry? with
    | none =>
      rw [List.filterMap_cons_none hs]
      exact ih.cons _
    | some e =>
      rw [List.filterMap_cons_some hs, List.map_cons, List.map_cons, entry?_eq_some hs]
      exact ih.cons_cons _

theorem nodup_names (hslots : (slots.map Slot.name).Nodup)
    (hes : es.Perm (slots.filterMap Slot.entry?)) : (es.map Entry.name).Nodup :=
  (hes.map Entry.name).nodup_iff.2 (hslots.sublist (names_sublist slots))

theorem slot_flags (hslots : slots.map (·.flag) = flags)
    (hes : es.Perm (slots.filterMap Slot.entry?)) : ∀ e ∈ es, e.flag ∈ flags := by
  intro e he
  obtain ⟨s, hs, hentry⟩ := List.mem_filterMap.1 (hes.mem_iff.1 he)
  obtain ⟨w, -, rfl⟩ := Option.map_eq_some_iff.1 hentry
  exact hslots ▸ List.mem_map_of_mem hs

theorem lookup_of_mem {given : Given} (h : (given.map (·.1)).Nodup) {name : String}
    {v : FlagValue} (hmem : (name, v) ∈ given) : given.lookup name = some v := by
  obtain ⟨before, after, rfl⟩ := List.append_of_mem hmem
  rw [List.lookup_eq_some_iff]
  refine ⟨before, after, rfl, fun p hp => ?_⟩
  rw [List.map_append, List.nodup_append] at h
  have hne := h.2.2 p.1 (List.mem_map_of_mem hp) name List.mem_cons_self
  simpa using fun heq : name = p.1 => hne heq.symm

/-- **What is found** under the name of a flag is its value, in whatever order the flags were
    given. -/
theorem lookup_slot (hslots : (slots.map Slot.name).Nodup)
    (hes : es.Perm (slots.filterMap Slot.entry?)) (hs : s ∈ slots) :
    (es.map Entry.given).lookup s.name = s.written.map (·.value) := by
  cases hw : s.written with
  | none =>
    rw [Option.map_none, List.lookup_eq_none_iff]
    intro p hp
    obtain ⟨e, he, rfl⟩ := List.mem_map.1 hp
    obtain ⟨s', hs', hentry⟩ := List.mem_filterMap.1 (hes.mem_iff.1 he)
    have hne : s.name ≠ e.name := by
      intro hname
      have hsame := List.inj_on_of_nodup_map hslots hs hs'
        (hname.trans (entry?_eq_some hentry).symm)
      rw [← hsame, Slot.entry?, hw] at hentry
      cases hentry
    simpa [Entry.given] using hne
  | some w =>
    have he : Entry.mk s.flag w ∈ es := by
      refine hes.mem_iff.2 (List.mem_filterMap.2 ⟨s, hs, ?_⟩)
      rw [Slot.entry?, hw, Option.map_some]
    have hnodup : ((es.map Entry.given).map (·.1)).Nodup := by
      rw [List.map_map]
      exact nodup_names hslots hes
    exact lookup_of_mem hnodup (List.mem_map_of_mem he)

section Lines

variable (h : Distinct flags) (hslots : slots.map (·.flag) = flags) {tokens : List String}
  {line : String} (horder : tokens.Perm (slots.filterMap Slot.token?))
  (hline : Text.Spaced tokens line.toList)

include h hslots horder hline

/-- **A line of flags** is read, and each flag is found under its name. -/
theorem readLine_slots : ∃ given, readLine flags line = .ok given ∧
    ∀ s ∈ slots, given.lookup s.name = s.written.map (·.value) := by
  have hnodup : (slots.map Slot.name).Nodup := by
    have hnames : slots.map Slot.name = (slots.map (·.flag)).map (·.name) := by
      rw [List.map_map]
      rfl
    rw [hnames, hslots]
    exact h.nodup
  obtain ⟨es, hes, rfl⟩ := exists_entries horder
  have hflags := slot_flags hslots hes
  exact ⟨es.map Entry.given, readLine_entries h hflags (nodup_names hnodup hes) hline,
    fun s hs => lookup_slot hnodup hes hs⟩

theorem comma_not_mem : ',' ∉ line.toList := by
  obtain ⟨es, hes, rfl⟩ := exists_entries horder
  intro hcomma
  rcases hline.mem hcomma with hblank | ⟨w, hw, hcw⟩
  · cases hblank
  · obtain ⟨e, he, rfl⟩ := List.mem_map.1 hw
    exact (h.ink_token (slot_flags hslots hes e he) _ hcw).2.2 rfl

end Lines

end ScheduleSearch.Command

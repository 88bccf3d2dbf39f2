/-
  What search commands ask for.

  A command of a key gives values to the flags of the key.  Only the values matter: neither the
  order of the flags nor the blanks around them, and what a flag that is left out stands for is
  its default.

  * `Written.count`, `Written.natural`, …: how the values of each kind are written;
  * `Parameters`, `Options`: the values that a command of a key gives to its own flags, and to
    those that all keys have; `slots` are the flags with these values, `Parameters.strategy` and
    `Options.asked` what they ask for;
  * `check_eq`, `strategy_eq`, `options_eq`: what is read follows from what is found under each
    name;
  * **`parse_slots`**: so the flags in any order, with any blanks, ask for these values.
-/
import ScheduleSearch.Proofs.CommandLine

namespace ScheduleSearch.Command

/-! ## Values -/

namespace Written

/-- A count, in decimal. -/
def count (n : Int64) : Written .count where
  text := some (toString n.toInt)
  value := .integer n.toInt
  alone := nofun
  reads := by
    have hread : IntegerRange.signed64.read (toString n.toInt) = .ok n.toInt :=
      IntegerRange.read_toString n.le_toInt (Int.le_of_lt_add_one n.toInt_lt) (by decide)
    rw [Option.getD_some, FlagKind.read, hread]
    rfl

/-- A width or a seed, in decimal. -/
def natural (n : UInt64) : Written .natural where
  text := some (toString n.toNat)
  value := .integer n.toNat
  alone := nofun
  reads := by
    have hread : IntegerRange.unsigned64.read (toString n.toNat) = .ok (n.toNat : Int) := by
      have hlt := n.toNat_lt
      refine IntegerRange.read_repr (by decide) ?_
      show (n.toNat : Int) ≤ 0xFFFFFFFFFFFFFFFF
      omega
    rw [Option.getD_some, FlagKind.read, hread]
    rfl

def mode (mode : EvalMode) : Written .mode where
  text := some mode.name
  value := .mode mode
  alone := nofun
  reads := by cases mode <;> rfl

/-- A switch that stands alone. -/
def bare : Written .switch where
  text := none
  value := .bool true
  alone _ := rfl
  reads := by decide

def switch (b : Bool) : Written .switch where
  text := some (toString b)
  value := .bool b
  alone := nofun
  reads := by cases b <;> decide

end Written

/-- How a switch is written, if it is. -/
inductive SwitchText where
  | absent
  | bare
  | given (b : Bool)
deriving DecidableEq, Repr

namespace SwitchText

def written? : SwitchText → Option (Written .switch)
  | absent => none
  | bare => some .bare
  | given b => some (.switch b)

/-- What the switch says, if it says `default` where it is absent. -/
def value (default : Bool) : SwitchText → Bool
  | absent => default
  | bare => true
  | given b => b

end SwitchText

/-- A text that is read as a number of seconds. -/
structure TimeoutText where
  text : String
  duration : Duration
  reads : readSeconds text = .ok duration

def TimeoutText.written (t : TimeoutText) : Written .seconds where
  text := some t.text
  value := .duration t.duration
  alone := nofun
  reads := by
    rw [Option.getD_some, FlagKind.read, t.reads]
    rfl

/-! ## Requests -/

/-- The values of a key's own flags. -/
inductive Parameters : SearchKey → Type where
  | greedy (steps lookahead : Int64) (width : UInt64) (mode : EvalMode) : Parameters .greedy
  | beam (steps : Int64) (width : UInt64) (mode : EvalMode) (ranking : SwitchText) :
    Parameters .beam
  | beamBfs (steps : Int64) (width : UInt64) (mode : EvalMode) (ranking : SwitchText) :
    Parameters .beamBfs
  | beamBeam (steps1 : Int64) (width1 : UInt64) (mode1 : EvalMode) (steps2 : Int64)
    (width2 : UInt64) (mode2 : EvalMode) : Parameters .beamBeam
  | random (steps : Int64) (mode : Option EvalMode) : Parameters .random

namespace Parameters

def slots : {key : SearchKey} → Parameters key → List Slot
  | _, greedy steps lookahead width mode =>
    [⟨⟨"steps", .count⟩, some (.count steps)⟩, ⟨⟨"lookahead", .count⟩, some (.count lookahead)⟩,
      ⟨⟨"width", .natural⟩, some (.natural width)⟩, ⟨⟨"eval", .mode⟩, some (.mode mode)⟩]
  | _, beam steps width mode ranking | _, beamBfs steps width mode ranking =>
    [⟨⟨"steps", .count⟩, some (.count steps)⟩, ⟨⟨"width", .natural⟩, some (.natural width)⟩,
      ⟨⟨"eval", .mode⟩, some (.mode mode)⟩, ⟨⟨"ranking", .switch⟩, ranking.written?⟩]
  | _, beamBeam steps1 width1 mode1 steps2 width2 mode2 =>
    [⟨⟨"steps1", .count⟩, some (.count steps1)⟩, ⟨⟨"width1", .natural⟩, some (.natural width1)⟩,
      ⟨⟨"eval1", .mode⟩, some (.mode mode1)⟩, ⟨⟨"steps2", .count⟩, some (.count steps2)⟩,
      ⟨⟨"width2", .natural⟩, some (.natural width2)⟩, ⟨⟨"eval2", .mode⟩, some (.mode mode2)⟩]
  | _, random steps mode =>
    [⟨⟨"steps", .count⟩, some (.count steps)⟩, ⟨⟨"eval", .mode⟩, mode.map .mode⟩]

/-- The strategy that these values ask for. -/
def strategy : {key : SearchKey} → Parameters key → Strategy
  | _, greedy steps lookahead width mode =>
    .greedy ⟨steps.toInt, lookahead.toInt, width.toNat, mode⟩
  | _, beam steps width mode ranking =>
    .beamDfs ⟨steps.toInt, width.toNat, mode, ranking.value true⟩
  | _, beamBfs steps width mode ranking =>
    .beamBfs ⟨steps.toInt, width.toNat, mode, ranking.value true⟩
  | _, beamBeam steps1 width1 mode1 steps2 width2 mode2 =>
    .beamBeam ⟨steps1.toInt, width1.toNat, mode1⟩ ⟨steps2.toInt, width2.toNat, mode2⟩
  | _, random steps mode => .random ⟨steps.toInt, mode.getD .loopNest⟩

end Parameters

/-- The values of the flags that all keys have. -/
structure Options where
  timeout : Option TimeoutText
  seed : Option UInt64
  debug : SwitchText

namespace Options

def slots (o : Options) : List Slot :=
  [⟨⟨"timeout", .seconds⟩, o.timeout.map (·.written)⟩, ⟨⟨"seed", .natural⟩, o.seed.map .natural⟩,
    ⟨⟨"debug", .switch⟩, o.debug.written?⟩]

/-- The options that these values ask for. -/
def asked (o : Options) : SearchOptions where
  timeout := o.timeout.map (·.duration)
  seed := o.seed
  debug := o.debug.value false

end Options

theorem flag_slots {key : SearchKey} (p : Parameters key) (o : Options) :
    (p.slots ++ o.slots).map (·.flag) = flags key := by
  cases p <;> rfl

variable {given : Given}

theorem bool?_eq {name : String} {text : SwitchText}
    (h : given.lookup name = text.written?.map (·.value)) (default : Bool) :
    (given.bool? name).getD default = text.value default := by
  rw [Given.bool?, h]
  cases text <;> rfl

theorem options_eq {o : Options}
    (h : ∀ s ∈ o.slots, given.lookup s.name = s.written.map (·.value)) :
    options given = o.asked := by
  simp only [Options.slots, List.forall_mem_cons, Slot.name] at h
  obtain ⟨htimeout, hseed, hdebug, -⟩ := h
  have hduration : given.duration? "timeout" = o.timeout.map (·.duration) := by
    rw [Given.duration?, htimeout]
    cases o.timeout <;> rfl
  have hinteger : (given.integer? "seed").map (·.toNat.toUInt64) = o.seed := by
    rw [Given.integer?, hseed]
    cases o.seed with
    | none => rfl
    | some seed => simp [Written.natural]
  rw [options, hduration, hinteger, bool?_eq hdebug]
  rfl

theorem required_integer {name : String} {n : Int}
    (h : given.lookup name = some (.integer n)) :
    Given.required given.integer? name = .ok n := by
  rw [Given.required, Given.integer?, h]

theorem required_mode {name : String} {mode : EvalMode}
    (h : given.lookup name = some (.mode mode)) : Given.required given.mode? name = .ok mode := by
  rw [Given.required, Given.mode?, h]

theorem beamParams_eq {steps : Int} {width : Nat} {mode : EvalMode} {ranking : SwitchText}
    (hsteps : given.lookup "steps" = some (.integer steps))
    (hwidth : given.lookup "width" = some (.integer width))
    (hmode : given.lookup "eval" = some (.mode mode))
    (hranking : given.lookup "ranking" = ranking.written?.map (·.value)) :
    beamParams given = .ok ⟨steps, width, mode, ranking.value true⟩ := by
  rw [beamParams, required_integer hsteps, required_integer hwidth, required_mode hmode,
    bool?_eq hranking]
  rfl

theorem strategy_eq {key : SearchKey} {p : Parameters key}
    (h : ∀ s ∈ p.slots, given.lookup s.name = s.written.map (·.value)) :
    strategy given key = .ok p.strategy := by
  cases p with
  | greedy steps lookahead width mode =>
    simp only [Parameters.slots, List.forall_mem_cons, Slot.name] at h
    obtain ⟨hsteps, hlookahead, hwidth, hmode, -⟩ := h
    rw [strategy, required_integer hsteps, required_integer hlookahead, required_integer hwidth,
      required_mode hmode]
    rfl
  | beam steps width mode ranking =>
    simp only [Parameters.slots, List.forall_mem_cons, Slot.name] at h
    obtain ⟨hsteps, hwidth, hmode, hranking, -⟩ := h
    rw [strategy, beamParams_eq hsteps hwidth hmode hranking]
    rfl
  | beamBfs steps width mode ranking =>
    simp only [Parameters.slots, List.forall_mem_cons, Slot.name] at h
    obtain ⟨hsteps, hwidth, hmode, hranking, -⟩ := h
    rw [strategy, beamParams_eq hsteps hwidth hmode hranking]
    rfl
  | beamBeam steps1 width1 mode1 steps2 width2 mode2 =>
    simp only [Parameters.slots, List.forall_mem_cons, Slot.name] at h
    obtain ⟨hsteps1, hwidth1, hmode1, hsteps2, hwidth2, hmode2, -⟩ := h
    rw [strategy, required_integer hsteps1, required_integer hwidth1, required_mode hmode1,
      required_integer hsteps2, required_integer hwidth2, required_mode hmode2]
    rfl
  | random steps mode =>
    simp only [Parameters.slots, List.forall_mem_cons, Slot.name] at h
    obtain ⟨hsteps, hmode, -⟩ := h
    have hdefault : (given.mode? "eval").getD .loopNest = mode.getD .loopNest := by
      rw [Given.mode?, hmode]
      cases mode <;> rfl
    rw [strategy, required_integer hsteps, hdefault]
    rfl

/-- A flag without a default has a value. -/
theorem required_slots {key : SearchKey} (p : Parameters key) :
    ∀ f ∈ required key, ∃ s ∈ p.slots, s.name = f.name ∧ s.written.isSome := by
  cases p <;> simp [required, Parameters.slots, Slot.name]

/-- No flag is missed. -/
theorem check_eq {key : SearchKey} {p : Parameters key}
    (h : ∀ s ∈ p.slots, given.lookup s.name = s.written.map (·.value)) :
    given.check (required key) = .ok () := by
  have hnone : (required key).filter (fun f => (given.lookup f.name).isNone) = [] := by
    refine List.filter_eq_nil_iff.2 fun f hf => ?_
    obtain ⟨s, hs, hname, hwritten⟩ := required_slots p f hf
    obtain ⟨w, hw⟩ := Option.isSome_iff_exists.1 hwritten
    rw [← hname, h s hs, hw]
    exact Bool.false_ne_true
  rw [Given.check, hnone]

/-- **The flags of a command**, each written once, in any order and with any blanks between
    them, ask for the strategy and the options with their values. -/
theorem parse_slots {key : SearchKey} (p : Parameters key) (o : Options) {tokens : List String}
    {line : String} (horder : tokens.Perm ((p.slots ++ o.slots).filterMap Slot.token?))
    (hline : Text.Spaced tokens line.toList) :
    parse key line = .ok ⟨p.strategy, o.asked⟩ := by
  have hdistinct := distinct_flags key
  have hslots := flag_slots p o
  obtain ⟨given, hread, hlookup⟩ := readLine_slots hdistinct hslots horder hline
  have hcomma := comma_not_mem hdistinct hslots horder hline
  have hcheck : given.check (required key) = .ok () :=
    check_eq fun s hs => hlookup s (List.mem_append_left o.slots hs)
  have hstrategy : strategy given key = .ok p.strategy :=
    strategy_eq fun s hs => hlookup s (List.mem_append_left o.slots hs)
  have hoptions : options given = o.asked :=
    options_eq fun s hs => hlookup s (List.mem_append_right p.slots hs)
  have hflags : readFlags key line = .ok ⟨p.strategy, o.asked⟩ := by
    simp only [readFlags, hread, hcheck, hstrategy, hoptions, bind, Except.bind, pure, Except.pure]
  rw [parse, if_neg fun hshort => hcomma hshort.2, parseFlags, hflags]
  rfl

/-- Numbers at the ends of their ranges, in an order and with blanks that nobody would choose. -/
theorem parse_slots_shuffled :
    let p : Parameters .beam := .beam (-9223372036854775808) 18446744073709551615 .policy
      (.given false)
    let o : Options := ⟨some ⟨"1.5e-3", ⟨1500000⟩, by decide +kernel⟩, some 0, .bare⟩
    let tokens := ["--debug", "--eval=policy", "--timeout=1.5e-3", "--steps=-9223372036854775808",
      "--ranking=false", "--seed=0", "--width=18446744073709551615"]
    let line := "\t--debug --eval=policy  --timeout=1.5e-3\n--steps=-9223372036854775808 " ++
      "--ranking=false --seed=0 --width=18446744073709551615"
    tokens.Perm ((p.slots ++ o.slots).filterMap Slot.token?) ∧ Text.Spaced tokens line.toList ∧
      parse .beam line = .ok ⟨.beamDfs ⟨-9223372036854775808, 18446744073709551615, .policy, false⟩,
        ⟨some ⟨1500000⟩, some 0, true⟩⟩ := by
  intro p o tokens line
  have horder : tokens.Perm ((p.slots ++ o.slots).filterMap Slot.token?) := by decide +kernel
  have hline : Text.Spaced tokens line.toList := by
    have hchars : line.toList = '\t' :: ("--debug".toList ++ ' ' :: ("--eval=policy".toList ++
        ' ' :: ' ' :: ("--timeout=1.5e-3".toList ++ '\n' ::
          ("--steps=-9223372036854775808".toList ++ ' ' :: ("--ranking=false".toList ++ ' ' ::
            ("--seed=0".toList ++ ' ' :: "--width=18446744073709551615".toList)))))) := by
      decide +kernel
    rw [hchars]
    exact .blank rfl (.word _ rfl (.word _ rfl (.blank rfl (.word _ rfl (.word _ rfl
      (.word _ rfl (.word _ rfl (.last _))))))))
  exact ⟨horder, hline, parse_slots p o horder hline⟩

end ScheduleSearch.Command

/-
  The worlds that a search is made for.

  `Moves` and `Replays` are accepted actions, and `Within a n` are the states that at
  most `n` accepted actions make of `a`, with the history cleared any number of
  times in between.  All that a search asks of a world is asked of such states:

  * `World a n`: fingerprints do not collide, actions extend the history, and
    states with one dump accept the same actions, with one dump after each;
  * `Accepting`: available and ranked actions are accepted;
  * `SteadyScores`: a state has at most one score, which its dump determines;
  * `Forgetful`: a cleared history changes no later acceptance and no score.

  `World.replays_congr` carries a sequence of actions from a state to another with
  the same dump.
-/
import ScheduleSearch.Search.Expand

namespace ScheduleSearch

namespace Agent

variable {α : Type} [Agent α] {a b c : α} {x : String} {xs ys : List String} {i n m : Nat}

/-- `b` is `a` after an action. -/
def Moves (a : α) (action : String) (b : α) : Prop :=
  changed a (apply action) = .ok b

/-- `b` is `a` after several actions. -/
def Replays (a : α) (actions : List String) (b : α) : Prop :=
  changed a (replay actions) = .ok b

theorem Moves.unique (h : Moves a x b) (h' : Moves a x c) : b = c :=
  Except.ok.inj (h.symm.trans h')

theorem Replays.unique (h : Replays a xs b) (h' : Replays a xs c) : b = c :=
  Except.ok.inj (h.symm.trans h')

theorem replays_nil : Replays a [] b ↔ b = a := by
  show Except.ok a = Except.ok b ↔ _
  rw [Except.ok.injEq, eq_comm]

theorem replays_cons : Replays a (x :: xs) c ↔ ∃ b, Moves a x b ∧ Replays b xs c := by
  unfold Replays Moves changed
  simp only [replay, EStateM.run, bind, EStateM.bind]
  cases apply x a <;> simp

theorem replays_append : Replays a (xs ++ ys) c ↔ ∃ b, Replays a xs b ∧ Replays b ys c := by
  induction xs generalizing a with
  | nil => simp [replays_nil]
  | cons x xs ih =>
    simp only [List.cons_append, replays_cons, ih]
    constructor
    · rintro ⟨b, hb, d, hd, h⟩; exact ⟨d, ⟨b, hb, hd⟩, h⟩
    · rintro ⟨d, ⟨b, hb, hd⟩, h⟩; exact ⟨b, hb, d, hd, h⟩

theorem replays_concat : Replays a (xs ++ [x]) c ↔ ∃ b, Replays a xs b ∧ Moves b x c := by
  rw [replays_append]
  simp [replays_cons, replays_nil]

/-- A replay that succeeds does so on the way, too. -/
theorem Replays.before (h : Replays a ys c) (hx : xs <+: ys) : ∃ b, Replays a xs b := by
  obtain ⟨zs, rfl⟩ := hx
  obtain ⟨b, hb, -⟩ := replays_append.1 h
  exact ⟨b, hb⟩

/-- The states that at most `n` accepted actions make of `a`, in between which
    the history may be cleared. -/
inductive Within (a : α) : Nat → α → Prop
  | start {n : Nat} : Within a n a
  | forget {n : Nat} {b : α} : Within a n b → Within a n (Agent.forget b)
  | move {n : Nat} {b c : α} {x : String} : Within a n b → Moves b x c → Within a (n + 1) c

theorem Within.mono (h : Within a n b) (hn : n ≤ m) : Within a m b := by
  induction h generalizing m with
  | start => exact .start
  | forget _ ih => exact .forget (ih hn)
  | move _ hs ih =>
    obtain ⟨m, rfl⟩ : ∃ k, m = k + 1 := ⟨m - 1, by omega⟩
    exact .move (ih (by omega)) hs

theorem Within.trans (h : Within a n b) (h' : Within b m c) : Within a (n + m) c := by
  induction h' with
  | start => exact h.mono (by omega)
  | forget _ ih => exact .forget ih
  | move _ hs ih => exact .move ih hs

theorem Within.replays (h : Within a n b) (hs : Replays b xs c) : Within a (n + xs.length) c := by
  induction xs generalizing b n with
  | nil => exact (replays_nil.1 hs) ▸ h
  | cons x xs ih =>
    obtain ⟨d, hd, hs⟩ := replays_cons.1 hs
    have := ih (h.move hd) hs
    rwa [List.length_cons, Nat.add_comm xs.length, ← Nat.add_assoc]

theorem Replays.within (h : Replays a xs b) (hn : xs.length ≤ n) : Within a n b :=
  (Within.replays (.start (n := 0)) h).mono (by omega)

end Agent

open Agent SearchM

/-! ## What a search asks of a world -/

variable {α ε : Type} [Agent α] [Evaluator ε α]

/-- The world of the states within `n` actions of `a`: fingerprints do not
    collide, actions extend the history, and the dump of a state determines
    which actions it accepts and the dumps after them. -/
structure World (a : α) (n : Nat) : Prop where
  distinct {b c : α} : Within a n b → Within a n c → fingerprint b = fingerprint c →
    dump b = dump c
  forgets {b : α} : Within a n b → history (forget b) = []
  appends {b c : α} {x : String} : Within a n b → Moves b x c → history c = history b ++ [x]
  congr {b b' c : α} {x : String} : Within a n b → Within a n b' → dump b = dump b' →
    Moves b x c → ∃ c', Moves b' x c' ∧ dump c = dump c'

/-- The actions that a state lists, and those that it is ranked by, are
    accepted. -/
structure Accepting (ev : ε) (a : α) (n : Nat) : Prop where
  available {b : α} {x : String} : Within a n b → x ∈ available b → ∃ c, Moves b x c
  ranked {b : α} {turn : Nat} {mode : EvalMode} {ranked : List RankedAction} {x : String} :
    Within a n b → Evaluator.rank ev turn b mode = .ok ranked → x ∈ ranked.map (·.action) →
      ∃ c, Moves b x c

/-- `score` is a measured score of a state, at some turn. -/
def Scores (ev : ε) (a : α) (score : Float) : Prop :=
  ∃ turn, Evaluator.score ev turn a .loopNest = .ok score

/-- The dump of a state determines its score.  The evaluator may still fail, now
    and then. -/
structure SteadyScores (ev : ε) (a : α) (n : Nat) : Prop where
  unique {b : α} {x y : Float} : Within a n b → Scores ev b x → Scores ev b y → x = y
  same {b c : α} {x : Float} : Within a n b → Within a n c → dump b = dump c →
    Scores ev b x → Scores ev c x

/-- Whether actions are accepted, and the scores after them, do not depend on a
    history that was cleared before. -/
def Forgetful (ev : ε) (a : α) (n : Nat) : Prop :=
  ∀ {b c : α} {xs : List String}, Within a n b → Replays (forget b) xs c →
    ∃ d, Replays b xs d ∧ ∀ x, Scores ev d x ↔ Scores ev c x

/-! ## Smaller worlds -/

section
variable {a b : α} {i m n : Nat} {ev : ε} (hb : Within a i b) (hn : i + m ≤ n)
include hb hn

theorem World.sub (h : World a n) : World b m where
  distinct hc hd := h.distinct ((hb.trans hc).mono hn) ((hb.trans hd).mono hn)
  forgets hc := h.forgets ((hb.trans hc).mono hn)
  appends hc := h.appends ((hb.trans hc).mono hn)
  congr hc hd := h.congr ((hb.trans hc).mono hn) ((hb.trans hd).mono hn)

theorem Accepting.sub (h : Accepting ev a n) : Accepting ev b m where
  available hc := h.available ((hb.trans hc).mono hn)
  ranked hc := h.ranked ((hb.trans hc).mono hn)

theorem SteadyScores.sub (h : SteadyScores ev a n) : SteadyScores ev b m where
  unique hc := h.unique ((hb.trans hc).mono hn)
  same hc hd := h.same ((hb.trans hc).mono hn) ((hb.trans hd).mono hn)

end

/-- The root of a search, and its world. -/
theorem World.forgotten {a : α} {n : Nat} (h : World a n) :
    World (forget a) n ∧ history (forget a) = [] :=
  ⟨h.sub (.forget .start) (Nat.le_of_eq (Nat.zero_add n)), h.forgets .start⟩

/-! ## Replays -/

namespace World

variable {a b b' c : α} {xs : List String} {i j n : Nat}

theorem history_replays (h : World a n) (hb : Within a i b) (hs : Replays b xs c)
    (hn : i + xs.length ≤ n) : history c = history b ++ xs := by
  induction xs generalizing b i with
  | nil => rw [replays_nil.1 hs, List.append_nil]
  | cons x xs ih =>
    obtain ⟨d, hd, hs⟩ := replays_cons.1 hs
    rw [List.length_cons] at hn
    rw [ih (hb.move hd) hs (by omega), h.appends (hb.mono (by omega)) hd, List.append_assoc,
      List.singleton_append]

/-- States with one dump accept the same sequences of actions, and have one dump
    after them. -/
theorem replays_congr (h : World a n) (hb : Within a i b) (hb' : Within a j b')
    (hd : dump b = dump b') (hs : Replays b xs c) (hi : i + xs.length ≤ n)
    (hj : j + xs.length ≤ n) : ∃ c', Replays b' xs c' ∧ dump c = dump c' := by
  induction xs generalizing b b' i j with
  | nil => exact ⟨b', replays_nil.2 rfl, (replays_nil.1 hs) ▸ hd⟩
  | cons x xs ih =>
    rw [List.length_cons] at hi hj
    obtain ⟨d, hx, hs⟩ := replays_cons.1 hs
    obtain ⟨d', hx', hdd⟩ := h.congr (hb.mono (by omega)) (hb'.mono (by omega)) hd hx
    obtain ⟨c', hc', hcc⟩ := ih (hb.move hx) (hb'.move hx') hdd hs (by omega) (by omega)
    exact ⟨c', replays_cons.2 ⟨d', hx', hc'⟩, hcc⟩

/-- A fingerprint stands for its dump. -/
theorem fingerprint_congr (hd : dump b = dump c) : fingerprint b = fingerprint c := by
  unfold fingerprint
  rw [hd]

end World

end ScheduleSearch

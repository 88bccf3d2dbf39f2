/-
  The text of a loop nest determines it.

  A dump is the loops, parted by blanks, between brackets, and then the cursor.  No text of
  a loop holds a blank or a bracket, so the dump can be taken apart again, and the text of a
  loop is a letter, perhaps the mark of a tile, and a decimal.

  * `Nest.dumpLoop_injective`, `Nest.dump_injective`: one text, one loop; one dump, one
    nest;
  * `LoopNest.changed_apply`: what an action makes of an agent depends on its nest alone;
  * **`LoopNest.dump_determines`**: agents with one dump have one nest, and the same future
    and the same scores and rankings, whatever their histories are.
-/
import Mathlib.Data.List.Basic
import ScheduleSearch.Proofs.Calls
import ScheduleSearch.World.Analytic
import Std.Data.String.ToNat

namespace ScheduleSearch

/-! ## Reading a dump apart -/

theorem isDigit_of_mem_repr {n : Nat} {c : Char} (h : c ∈ n.repr.toList) : c.isDigit := by
  rw [Nat.toList_repr] at h
  exact Nat.isDigit_of_mem_toDigits (by decide) (by decide) h

theorem Axis.name_eq (x : Axis) : ∃ c ∈ ['m', 'n', 'k'], x.name.toList = [c] := by
  cases x <;> exact ⟨_, by decide, rfl⟩

namespace Nest

theorem toList_dumpLoop (l : Loop) :
    (dumpLoop l).toList =
      l.axis.name.toList ++ ((if l.tiled then ['\''] else []) ++ l.size.toNat.repr.toList) := by
  unfold dumpLoop
  cases l.tiled <;> simp

theorem dumpLoop_injective {l l' : Loop} (h : dumpLoop l = dumpLoop l') : l = l' := by
  have hchars := congrArg String.toList h
  rw [toList_dumpLoop, toList_dumpLoop] at hchars
  obtain ⟨axis, size, tiled⟩ := l
  obtain ⟨axis', size', tiled'⟩ := l'
  -- no digit is the mark of a tile
  have hmark : ∀ n m : Nat, n.repr.toList ≠ '\'' :: m.repr.toList := fun n m hn => by
    have hdigit : ('\'').isDigit := isDigit_of_mem_repr (n := n) (hn ▸ List.mem_cons_self)
    exact absurd hdigit (by decide)
  obtain rfl : axis = axis' := by
    cases axis <;> cases axis' <;> simp_all [Axis.name]
  have hrest := List.append_cancel_left hchars
  obtain rfl : tiled = tiled' := by
    cases tiled <;> cases tiled'
    · rfl
    · exact absurd hrest (hmark _ _)
    · exact absurd hrest.symm (hmark _ _)
    · rfl
  have hsize := String.toList_inj.1 (List.append_cancel_left hrest)
  obtain rfl : size = size' := UInt32.toNat_inj.1 (Nat.repr_inj.1 hsize)
  rfl

/-- The text of a loop holds no blank and no bracket. -/
theorem not_mem_dumpLoop {l : Loop} {c : Char} (hc : c = ' ' ∨ c = ']') :
    c ∉ (dumpLoop l).toList := by
  intro hmem
  rw [toList_dumpLoop, List.mem_append, List.mem_append] at hmem
  obtain ⟨letter, hletter, hname⟩ := l.axis.name_eq
  rcases hmem with hmem | hmem | hmem
  · rw [hname, List.mem_singleton] at hmem
    subst hmem
    rcases hc with rfl | rfl <;> exact absurd hletter (by decide)
  · split at hmem
    · rw [List.mem_singleton] at hmem
      subst hmem
      rcases hc with hc | hc <;> exact absurd hc (by decide)
    · cases hmem
  · have hdigit := isDigit_of_mem_repr hmem
    rcases hc with rfl | rfl <;> exact absurd hdigit (by decide)

theorem dumpLoop_ne_nil (l : Loop) : (dumpLoop l).toList ≠ [] := by
  obtain ⟨letter, -, hname⟩ := l.axis.name_eq
  rw [toList_dumpLoop, hname]
  exact List.cons_ne_nil _ _

/-- The loops of a dump, parted by blanks. -/
def loopsText (loops : List Loop) : List Char :=
  [' '].intercalate (loops.map fun l => (dumpLoop l).toList)

theorem splitOn_loopsText (loops : List Loop) :
    (loopsText loops).splitOn ' ' =
      if loops = [] then [[]] else loops.map fun l => (dumpLoop l).toList := by
  split
  · subst loops
    rfl
  · refine List.splitOn_intercalate ' ' ?_ (by simpa)
    simp only [List.mem_map, forall_exists_index, and_imp, forall_apply_eq_imp_iff₂]
    exact fun l _ => not_mem_dumpLoop (.inl rfl)

theorem loopsText_injective {loops loops' : List Loop} (h : loopsText loops = loopsText loops') :
    loops = loops' := by
  have hsplit := congrArg (List.splitOn ' ') h
  rw [splitOn_loopsText, splitOn_loopsText] at hsplit
  have hinj : Function.Injective fun l => (dumpLoop l).toList := fun l l' hl =>
    dumpLoop_injective (String.toList_inj.1 hl)
  split at hsplit <;> split at hsplit
  · exact ‹loops = []›.trans ‹loops' = []›.symm
  · obtain ⟨l, -, hl⟩ := List.mem_map.1 (hsplit ▸ List.mem_singleton_self [])
    exact absurd hl (dumpLoop_ne_nil l)
  · obtain ⟨l, -, hl⟩ := List.mem_map.1 (hsplit.symm ▸ List.mem_singleton_self [])
    exact absurd hl (dumpLoop_ne_nil l)
  · exact hinj.list_map hsplit

theorem toList_dump (s : Nest) :
    s.dump.toList =
      '[' :: loopsText s.loops ++ ']' :: (" cursor=".toList ++ s.cursor.repr.toList) := by
  have hend : (s!"] cursor={s.cursor}").toList =
      ']' :: (" cursor=".toList ++ s.cursor.repr.toList) := by
    simp [toString]
  unfold dump loopsText
  rw [String.toList_append, String.toList_append, hend, String.toList_intercalate, List.map_map]
  rfl

theorem not_mem_loopsText (loops : List Loop) : ']' ∉ loopsText loops := by
  induction loops with
  | nil => simp [loopsText]
  | cons l loops ih =>
    cases loops with
    | nil => simpa [loopsText] using not_mem_dumpLoop (l := l) (.inr rfl)
    | cons l' loops =>
      unfold loopsText at ih ⊢
      rw [List.map_cons] at ih ⊢
      rw [List.map_cons, List.intercalate_cons_cons, List.mem_append, List.mem_append]
      rintro ((h | h) | h)
      · exact not_mem_dumpLoop (.inr rfl) h
      · exact absurd h (by decide)
      · exact ih h

/-- One dump, one nest. -/
theorem dump_injective {s s' : Nest} (h : s.dump = s'.dump) : s = s' := by
  have hchars := congrArg String.toList h
  rw [toList_dump, toList_dump, List.cons_append, List.cons_append, List.cons.injEq] at hchars
  -- the end of a dump holds no bracket either
  have hend : ∀ n : Nat, ']' ∉ " cursor=".toList ++ n.repr.toList := fun n hn => by
    rcases List.mem_append.1 hn with hn | hn
    · exact absurd hn (by decide)
    · have hdigit : (']').isDigit := isDigit_of_mem_repr hn
      exact absurd hdigit (by decide)
  obtain ⟨hloops, -, hcursor⟩ :=
    (List.append_cons_inj_of_notMem (not_mem_loopsText _) (hend _)).1 hchars.2
  obtain ⟨loops, cursor⟩ := s
  obtain ⟨loops', cursor'⟩ := s'
  obtain rfl : loops = loops' := loopsText_injective hloops
  obtain rfl : cursor = cursor' :=
    Nat.repr_inj.1 (String.toList_inj.1 (List.append_cancel_left hcursor))
  rfl

/-- What the action called `name` makes of a nest. -/
def called (s : Nest) (name : String) : Except AgentError Nest :=
  match NestAction.ofName? name with
  | none => .error (.unknownAction name)
  | some action => (s.act action).mapError (.illegalAction name)

end Nest

namespace LoopNest

open Agent

variable {a b : LoopNest}

/-- What an action makes of an agent depends on its nest alone; it adds to the history. -/
theorem changed_apply (a : LoopNest) (name : String) :
    changed a (Agent.apply name) =
      (a.nest.called name).map fun nest => ⟨nest, a.actions ++ [name], a.nest :: a.saved⟩ := by
  show changed a (LoopNest.apply name) = _
  unfold changed EStateM.run LoopNest.apply Nest.called
  cases NestAction.ofName? name with
  | none => rfl
  | some action =>
    dsimp only
    cases a.nest.act action <;> rfl

theorem dump_changed (h : a.nest = b.nest) (name : String) :
    (changed a (Agent.apply name)).map dump = (changed b (Agent.apply name)).map dump := by
  rw [changed_apply, changed_apply, h]
  cases b.nest.called name <;> rfl

theorem score_congr (e : AnalyticEvaluator) (h : a.nest = b.nest) (mode : EvalMode) :
    e.score a mode = e.score b mode := by
  cases mode <;> simp only [AnalyticEvaluator.score, h]

theorem available_congr (h : a.nest = b.nest) : available a = available b :=
  congrArg (fun s : Nest => s.available.map NestAction.name) h

/-- The scores of the successors depend on the nest alone. -/
theorem successors_congr (e : AnalyticEvaluator) (h : a.nest = b.nest) (mode : EvalMode) :
    e.successors a mode = e.successors b mode := by
  unfold AnalyticEvaluator.successors
  rw [available_congr h]
  congr 1
  funext action
  rw [changed_apply, changed_apply, h]
  cases b.nest.called action with
  | error err => rfl
  | ok nest =>
    have hscore := score_congr e (a := ⟨nest, a.actions ++ [action], b.nest :: a.saved⟩)
      (b := ⟨nest, b.actions ++ [action], b.nest :: b.saved⟩) rfl mode
    simp only [Except.map, Except.mapError, bind, Except.bind, hscore]

theorem rank_congr (e : AnalyticEvaluator) (h : a.nest = b.nest) (mode : EvalMode) :
    e.rank a mode = e.rank b mode := by
  cases mode <;>
    simp only [AnalyticEvaluator.rank, successors_congr e h, available_congr h]

/-- **A dump determines the loop nest**: two agents have one dump exactly if they have the
    same loops and the same cursor.  Then, whatever their histories are, they list the same
    actions, every action is accepted by both, with one dump after it, or rejected by both
    for one reason, and they have the same scores and rankings under every mode and all
    models. -/
theorem dump_determines (a b : LoopNest) :
    (dump a = dump b ↔ a.nest.loops = b.nest.loops ∧ a.nest.cursor = b.nest.cursor) ∧
    (dump a = dump b →
      available a = available b ∧
      (∀ name, (changed a (Agent.apply name)).map dump =
        (changed b (Agent.apply name)).map dump) ∧
      ∀ (e : AnalyticEvaluator) (turn turn' : Nat) (mode : EvalMode),
        Evaluator.score e turn a mode = Evaluator.score e turn' b mode ∧
        Evaluator.rank e turn a mode = Evaluator.rank e turn' b mode) := by
  have hnest : dump a = dump b ↔ a.nest = b.nest :=
    ⟨Nest.dump_injective, fun h => congrArg Nest.dump h⟩
  constructor
  · rw [hnest]
    obtain ⟨⟨loops, cursor⟩, actions, saved⟩ := a
    obtain ⟨⟨loops', cursor'⟩, actions', saved'⟩ := b
    simp only [Nest.mk.injEq]
  · intro h
    have h := hnest.1 h
    exact ⟨available_congr h, dump_changed h, fun e _ _ mode =>
      ⟨score_congr e h mode, rank_congr e h mode⟩⟩

/-- A nest that was split and merged again has a history, but the dump of a fresh one. -/
theorem dump_determines_merged :
    dump (after (matmul 64 8 8) [.replay ["split_4", "merge"]]) = dump (matmul 64 8 8) ∧
      available (after (matmul 64 8 8) [.replay ["split_4", "merge"]]) =
        available (matmul 64 8 8) := by
  have h : dump (after (matmul 64 8 8) [.replay ["split_4", "merge"]]) =
      dump (matmul 64 8 8) := by decide +kernel
  exact ⟨h, ((dump_determines _ _).2 h).1⟩

end LoopNest

end ScheduleSearch

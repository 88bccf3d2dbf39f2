/-
  The shape of a loop nest.

  However often the loops of a matrix product are split, exchanged and merged, those of
  one axis are one base loop and some tiles, and their sizes multiply to the extent of
  the axis (`Tiling`).  This is why a merge never leaves the 32 bits of a size: an axis
  that is tiled has no loop without rounds, so that two of its sizes multiply to at most
  the extent.

  * `rounds`: how often the loops of an axis do their body; `bases`: how many of them
    are no tiles;
  * `Tiling.split`, `Tiling.merge`, `Tiling.perm`: what the actions do to a tiling;
  * `Nest.carryOut?` does an action by positions, and checks each of them and each
    number;
  * **`LoopNest.after_matmul`**: every nest that calls lead to is shaped, and every
    action that it accepts passes those checks.
-/
import Mathlib.Algebra.BigOperators.Group.List.Basic
import Mathlib.Data.List.Perm.Basic
import Mathlib.Data.Nat.Prime.Basic
import ScheduleSearch.Proofs.Calls
import ScheduleSearch.World.LoopNest

namespace ScheduleSearch

open Agent

/-! ## Tilings -/

/-- How often the loops of an axis, one inside the other, do their body. -/
def rounds (x : Axis) (loops : List Loop) : Nat :=
  ((loops.filter (·.axis = x)).map (·.size.toNat)).prod

/-- How many loops of an axis are no tiles. -/
def bases (x : Axis) (loops : List Loop) : Nat :=
  loops.countP fun l => l.axis = x ∧ l.tiled = false

/-- The loops of axes with these extents: a base loop for each, and tiles. -/
structure Tiling (extent : Axis → UInt32) (loops : List Loop) : Prop where
  bases : ∀ x, bases x loops = 1
  rounds : ∀ x, rounds x loops = (extent x).toNat
  /-- the size of a tile is a power of two, and at least two -/
  tile : ∀ l ∈ loops, l.tiled → ∃ e, 1 ≤ e ∧ l.size.toNat = 2 ^ e
  /-- the base loop of an axis with a tile has at least two rounds -/
  base : ∀ l ∈ loops, l.tiled = false → ∀ t ∈ loops, t.tiled → t.axis = l.axis →
    2 ≤ l.size.toNat

section Counts

variable {x : Axis} {l : Loop} {loops loops' : List Loop}

theorem rounds_cons :
    rounds x (l :: loops) = (if l.axis = x then l.size.toNat else 1) * rounds x loops := by
  unfold rounds
  by_cases h : l.axis = x <;> simp [h]

theorem bases_cons :
    bases x (l :: loops) =
      (if l.axis = x ∧ l.tiled = false then 1 else 0) + bases x loops := by
  unfold bases
  by_cases h : l.axis = x ∧ l.tiled = false <;> simp [h, Nat.add_comm]

theorem rounds_perm (h : loops.Perm loops') : rounds x loops = rounds x loops' :=
  ((h.filter _).map _).prod_eq

theorem bases_perm (h : loops.Perm loops') : bases x loops = bases x loops' :=
  h.countP_eq _

/-- An axis whose loops all have rounds has rounds. -/
theorem rounds_pos (h : ∀ l ∈ loops, l.axis = x → 0 < l.size.toNat) : 0 < rounds x loops := by
  induction loops with
  | nil => exact Nat.one_pos
  | cons l loops ih =>
    rw [rounds_cons]
    refine Nat.mul_pos ?_ (ih fun l' hl' => h l' (.tail l hl'))
    split
    · exact h l (.head loops) ‹_›
    · exact Nat.one_pos

theorem bases_pos (hl : l ∈ loops) (hbase : l.tiled = false) : 0 < bases l.axis loops :=
  List.countP_pos_iff.2 ⟨l, hl, by simp [hbase]⟩

/-- Every loop is a tile, or a base loop of one of the axes. -/
theorem length_eq_tiles (loops : List Loop) :
    loops.length =
      loops.countP (·.tiled) + (bases .m loops + bases .n loops + bases .k loops) := by
  induction loops with
  | nil => rfl
  | cons l loops ih =>
    rw [List.length_cons, ih, List.countP_cons]
    simp only [bases_cons]
    cases l.axis <;> cases l.tiled <;> simp <;> omega

end Counts

theorem splitFactors_pow : ∀ factor ∈ splitFactors, ∃ e, 1 ≤ e ∧ factor.toNat = 2 ^ e := by
  intro factor h
  simp only [splitFactors, List.mem_cons, List.not_mem_nil, or_false] at h
  rcases h with rfl | rfl | rfl | rfl
  · exact ⟨1, by decide, rfl⟩
  · exact ⟨2, by decide, rfl⟩
  · exact ⟨3, by decide, rfl⟩
  · exact ⟨4, by decide, rfl⟩

namespace Tiling

variable {extent : Axis → UInt32} {loops loops' rest : List Loop} {l outer inner : Loop}
  {factor : UInt32}

/-- The order of the loops plays no role. -/
theorem perm (h : Tiling extent loops) (hp : loops.Perm loops') : Tiling extent loops' where
  bases x := (bases_perm hp).symm.trans (h.bases x)
  rounds x := (rounds_perm hp).symm.trans (h.rounds x)
  tile l hl := h.tile l (hp.mem_iff.2 hl)
  base l hl hb t ht := h.base l (hp.mem_iff.2 hl) hb t (hp.mem_iff.2 ht)

theorem two_le_tile (h : Tiling extent loops) (hl : l ∈ loops) (ht : l.tiled) :
    2 ≤ l.size.toNat := by
  obtain ⟨e, he, hsize⟩ := h.tile l hl ht
  rw [hsize]
  exact Nat.le_self_pow (by omega) 2

/-- On an axis with a tile, every loop has at least two rounds. -/
theorem two_le (h : Tiling extent loops) (hinner : inner ∈ loops) (ht : inner.tiled)
    (hl : l ∈ loops) (hx : l.axis = inner.axis) : 2 ≤ l.size.toNat := by
  by_cases hb : l.tiled = true
  · exact h.two_le_tile hl hb
  · exact h.base l hl (by simpa using hb) inner hinner ht hx.symm

theorem eq_of_base (h : Tiling extent (l :: rest)) {l' : Loop} (hl' : l' ∈ rest)
    (hx : l'.axis = l.axis) (hb : l.tiled = false) : l'.tiled = true := by
  by_contra hb'
  have hpos : 0 < ScheduleSearch.bases l.axis rest := hx ▸ bases_pos hl' (by simpa using hb')
  have hone := h.bases l.axis
  rw [bases_cons, if_pos ⟨rfl, hb⟩] at hone
  omega

/-- The sizes of two loops of a tiled axis have a product that fits. -/
theorem mul_lt (h : Tiling extent (outer :: inner :: rest)) (hx : outer.axis = inner.axis)
    (ht : inner.tiled) : outer.size.toNat * inner.size.toNat < UInt32.size := by
  have hrounds := h.rounds inner.axis
  rw [rounds_cons, if_pos hx, rounds_cons, if_pos rfl, ← Nat.mul_assoc] at hrounds
  have hpos : 0 < ScheduleSearch.rounds inner.axis rest := by
    refine rounds_pos fun l hl hl' => ?_
    have := h.two_le (.tail _ (.head _)) ht (.tail _ (.tail _ hl)) hl'
    omega
  calc outer.size.toNat * inner.size.toNat
      ≤ outer.size.toNat * inner.size.toNat * ScheduleSearch.rounds inner.axis rest :=
        Nat.le_mul_of_pos_right _ hpos
    _ = (extent inner.axis).toNat := hrounds
    _ < UInt32.size := (extent inner.axis).toNat_lt

/-- A tile merged into the loop around it. -/
theorem merge (h : Tiling extent (outer :: inner :: rest)) (hx : outer.axis = inner.axis)
    (ht : inner.tiled) :
    Tiling extent ({ outer with size := outer.size * inner.size } :: rest) := by
  have hsize : (outer.size * inner.size).toNat = outer.size.toNat * inner.size.toNat := by
    rw [UInt32.toNat_mul]
    exact Nat.mod_eq_of_lt (h.mul_lt hx ht)
  have houter : outer ∈ outer :: inner :: rest := .head _
  have hinner : inner ∈ outer :: inner :: rest := .tail _ (.head _)
  have hrest : ∀ l ∈ rest, l ∈ outer :: inner :: rest := fun l hl => .tail _ (.tail _ hl)
  constructor
  · intro x
    have := h.bases x
    simp only [bases_cons, ht, Bool.true_eq_false, and_false, if_false, Nat.zero_add] at this ⊢
    exact this
  · intro x
    have := h.rounds x
    simp only [rounds_cons, hx, hsize] at this ⊢
    split at this
    · rw [if_pos ‹_›, Nat.mul_assoc]
      exact this
    · rw [if_neg ‹_›]
      simpa using this
  · rintro l (_ | ⟨_, hl⟩) htl
    · obtain ⟨e, he, hout⟩ := h.tile outer houter htl
      obtain ⟨e', -, hin⟩ := h.tile inner hinner ht
      exact ⟨e + e', by omega, by rw [hsize, hout, hin, pow_add]⟩
    · exact h.tile l (hrest l hl) htl
  · rintro l (_ | ⟨_, hl⟩) hb t htm ht' hxt
    · show 2 ≤ (outer.size * inner.size).toNat
      rw [hsize]
      calc 2 ≤ outer.size.toNat := h.two_le hinner ht houter hx
        _ ≤ outer.size.toNat * inner.size.toNat :=
          Nat.le_mul_of_pos_right _ (Nat.lt_of_lt_of_le Nat.two_pos (h.two_le_tile hinner ht))
    · rcases htm with _ | ⟨_, htm⟩
      · exact h.base l (hrest l hl) hb outer houter ht' hxt
      · exact h.base l (hrest l hl) hb t (hrest t htm) ht' hxt

/-- A loop split by a factor that divides its size: the inner half is a tile. -/
theorem split (h : Tiling extent (l :: rest)) (hfactor : factor ∈ splitFactors)
    (hlt : factor < l.size) (hdvd : l.size % factor = 0) :
    Tiling extent
      ({ l with size := l.size / factor } :: ⟨l.axis, factor, true⟩ :: rest) := by
  obtain ⟨e, he, hpow⟩ : ∃ e, 1 ≤ e ∧ factor.toNat = 2 ^ e := splitFactors_pow factor hfactor
  have hmul : (l.size / factor).toNat * factor.toNat = l.size.toNat := by
    have hmod : l.size.toNat % factor.toNat = 0 := by
      rw [← UInt32.toNat_mod, hdvd]; rfl
    rw [UInt32.toNat_div]
    exact Nat.div_mul_cancel (Nat.dvd_of_mod_eq_zero hmod)
  have hquot : 2 ≤ (l.size / factor).toNat := by
    by_contra hle
    have hle' : (l.size / factor).toNat * factor.toNat ≤ 1 * factor.toNat :=
      Nat.mul_le_mul_right _ (by omega)
    have := UInt32.lt_iff_toNat_lt.1 hlt
    omega
  have hl : l ∈ l :: rest := .head _
  have hrest : ∀ l' ∈ rest, l' ∈ l :: rest := fun l' hl' => .tail _ hl'
  constructor
  · intro x
    have := h.bases x
    simp only [bases_cons, Bool.true_eq_false, and_false, if_false, Nat.zero_add] at this ⊢
    exact this
  · intro x
    have := h.rounds x
    simp only [rounds_cons] at this ⊢
    split at this
    · rw [if_pos ‹_›, if_pos ‹_›, ← Nat.mul_assoc, hmul]
      exact this
    · rw [if_neg ‹_›, if_neg ‹_›, Nat.one_mul]
      exact this
  · rintro l' (_ | ⟨_, _ | ⟨_, hl'⟩⟩) htl
    · obtain ⟨d, -, hsize⟩ := h.tile l hl htl
      obtain ⟨j, -, hj⟩ := (Nat.dvd_prime_pow Nat.prime_two).1 (hsize ▸ Dvd.intro _ hmul)
      refine ⟨j, Nat.pos_of_ne_zero ?_, hj⟩
      rintro rfl
      omega
    · exact ⟨e, he, hpow⟩
    · exact h.tile l' (hrest l' hl') htl
  · rintro l' (_ | ⟨_, _ | ⟨_, hl'⟩⟩) hb t htm ht hxt
    · exact hquot
    · exact absurd hb (by simp)
    · rcases htm with _ | ⟨_, _ | ⟨_, htm⟩⟩
      · exact h.base l' (hrest l' hl') hb l hl ht hxt
      · -- the new tile: the split loop is a tile too, for the other base loop is `l'`
        by_cases htl : l.tiled = true
        · exact h.base l' (hrest l' hl') hb l hl htl hxt
        · have := h.eq_of_base hl' hxt.symm (by simpa using htl)
          exact absurd (hb.symm.trans this) (by simp)
      · exact h.base l' (hrest l' hl') hb t (hrest t htm) ht hxt

end Tiling

/-! ## Loops in a list -/

section Positions

variable {i : Nat} {loops : List Loop} {l outer inner : Loop} {factor : UInt32}

theorem exchange_perm (i : Nat) (loops : List Loop) : (exchange i loops).Perm loops := by
  fun_induction exchange i loops with
  | case1 outer inner rest => exact .swap _ _ _
  | case2 i l rest ih => exact ih.cons l
  | case3 => exact .refl _

theorem splitAt_perm (h : loops[i]? = some l) :
    ∃ rest, loops.Perm (l :: rest) ∧
      (splitAt factor i loops).Perm
        ({ l with size := l.size / factor } :: ⟨l.axis, factor, true⟩ :: rest) := by
  induction loops generalizing i with
  | nil => simp at h
  | cons l' loops ih =>
    cases i with
    | zero =>
      obtain rfl : l' = l := by simpa using h
      exact ⟨loops, .refl _, .refl _⟩
    | succ i =>
      obtain ⟨rest, hp, hp'⟩ := ih (by simpa using h)
      exact ⟨l' :: rest, (hp.cons l').trans (.swap _ _ _),
        (hp'.cons l').trans ((List.Perm.swap _ _ _).trans ((List.Perm.swap _ _ _).cons _))⟩

theorem mergeAt_perm (ho : loops[i]? = some outer) (hi : loops[i + 1]? = some inner) :
    ∃ rest, loops.Perm (outer :: inner :: rest) ∧
      (mergeAt i loops).Perm ({ outer with size := outer.size * inner.size } :: rest) := by
  induction loops generalizing i with
  | nil => simp at ho
  | cons l loops ih =>
    cases i with
    | zero =>
      obtain rfl : l = outer := by simpa using ho
      cases loops with
      | nil => simp at hi
      | cons l' rest =>
        obtain rfl : l' = inner := by simpa using hi
        exact ⟨rest, .refl _, .refl _⟩
    | succ i =>
      obtain ⟨rest, hp, hp'⟩ := ih (by simpa using ho) (by simpa using hi)
      exact ⟨l :: rest,
        (hp.cons l).trans ((List.Perm.swap _ _ _).trans ((List.Perm.swap _ _ _).cons _)),
        (hp'.cons l).trans (.swap _ _ _)⟩

theorem length_exchange (i : Nat) (loops : List Loop) :
    (exchange i loops).length = loops.length :=
  (exchange_perm i loops).length_eq

theorem exchange_eq_set (ho : loops[i]? = some outer) (hi : loops[i + 1]? = some inner) :
    exchange i loops = (loops.set i inner).set (i + 1) outer := by
  induction loops generalizing i with
  | nil => simp at ho
  | cons l loops ih =>
    cases i with
    | zero =>
      cases loops with
      | nil => simp at hi
      | cons l' rest => simp_all [exchange]
    | succ i => simp [exchange, ih (by simpa using ho) (by simpa using hi)]

theorem splitAt_eq_insertIdx (h : loops[i]? = some l) :
    splitAt factor i loops =
      (loops.set i { l with size := l.size / factor }).insertIdx (i + 1)
        ⟨l.axis, factor, true⟩ := by
  induction loops generalizing i with
  | nil => simp at h
  | cons l' loops ih =>
    cases i with
    | zero => simp_all [splitAt]
    | succ i => simp [splitAt, ih (by simpa using h)]

theorem mergeAt_eq_eraseIdx (ho : loops[i]? = some outer) (hi : loops[i + 1]? = some inner) :
    mergeAt i loops =
      (loops.eraseIdx (i + 1)).set i { outer with size := outer.size * inner.size } := by
  induction loops generalizing i with
  | nil => simp at ho
  | cons l loops ih =>
    cases i with
    | zero =>
      cases loops with
      | nil => simp at hi
      | cons l' rest => simp_all [mergeAt]
    | succ i => simp [mergeAt, ih (by simpa using ho) (by simpa using hi)]

end Positions

/-! ## Nests -/

theorem NestAction.mem_splitFactors {name : String} {factor : UInt32}
    (h : ofName? name = some (.split factor)) : factor ∈ splitFactors := by
  unfold ofName? at h
  split at h
  case h_6 =>
    dsimp only at h
    split at h
    · split at h
      · split at h
        · obtain rfl : _ = factor := by simpa using h
          assumption
        · cases h
      · cases h
    · cases h
  all_goals simp at h

namespace Nest

/-- A nest over axes with these extents: a tiling, and the cursor is on one of its
    loops. -/
structure Shaped (extent : Axis → UInt32) (s : Nest) : Prop where
  cursor : s.cursor < s.loops.length
  tiling : Tiling extent s.loops

/-- What the actions make of a nest, and when they are legal. -/
inductive Step (s : Nest) : NestAction → Nest → Prop
  | up : 0 < s.cursor → Step s .up ⟨s.loops, s.cursor - 1⟩
  | down : s.cursor + 1 < s.loops.length → Step s .down ⟨s.loops, s.cursor + 1⟩
  | swapUp : 0 < s.cursor →
      Step s .swapUp ⟨exchange (s.cursor - 1) s.loops, s.cursor - 1⟩
  | swapDown : s.cursor + 1 < s.loops.length →
      Step s .swapDown ⟨exchange s.cursor s.loops, s.cursor + 1⟩
  | merge {outer inner : Loop} : s.loops[s.cursor]? = some outer →
      s.loops[s.cursor + 1]? = some inner → outer.axis = inner.axis → inner.tiled →
      Step s .merge ⟨mergeAt s.cursor s.loops, s.cursor⟩
  | split {l : Loop} {factor : UInt32} : s.loops[s.cursor]? = some l → factor < l.size →
      l.size % factor = 0 → Step s (.split factor) ⟨splitAt factor s.cursor s.loops, s.cursor⟩

variable {s s' : Nest} {action : NestAction} {name : String} {extent : Axis → UInt32}

theorem ok_of_guarded {c : Prop} [Decidable c] {detail : String}
    (h : (if c then .ok s else .error detail : Except String Nest) = .ok s') : c ∧ s = s' := by
  split at h
  · exact ⟨‹_›, Except.ok.inj h⟩
  · cases h

theorem step_of_act (h : s.act action = .ok s') : Step s action s' := by
  cases action with
  | up =>
    obtain ⟨hc, rfl⟩ := ok_of_guarded h
    exact .up hc
  | down =>
    obtain ⟨hc, rfl⟩ := ok_of_guarded h
    exact .down (by omega)
  | swapUp =>
    obtain ⟨hc, rfl⟩ := ok_of_guarded h
    exact .swapUp hc
  | swapDown =>
    obtain ⟨hc, rfl⟩ := ok_of_guarded h
    exact .swapDown (by omega)
  | merge =>
    obtain ⟨hc, rfl⟩ := ok_of_guarded h
    unfold canMerge at hc
    split at hc
    · rename_i outer inner ho hi
      simp only [Bool.and_eq_true, beq_iff_eq] at hc
      exact .merge ho hi hc.1 hc.2
    · cases hc
  | split factor =>
    obtain ⟨hc, rfl⟩ := ok_of_guarded h
    unfold canSplit at hc
    split at hc
    · rename_i l hl
      simp only [Bool.and_eq_true, beq_iff_eq, decide_eq_true_eq] at hc
      exact .split hl hc.1 hc.2
    · cases hc

/-- The tiles are all loops but three. -/
theorem Shaped.tiles (h : s.Shaped extent) : s.tiles + 3 = s.loops.length := by
  rw [length_eq_tiles, h.tiling.bases, h.tiling.bases, h.tiling.bases]
  rfl

/-- An action by a name leads from a shaped nest to a shaped one. -/
theorem Shaped.act (h : s.Shaped extent) (hname : NestAction.ofName? name = some action)
    (hact : s.act action = .ok s') : s'.Shaped extent := by
  cases step_of_act hact with
  | up h0 => exact ⟨Nat.lt_of_le_of_lt (Nat.sub_le _ _) h.cursor, h.tiling⟩
  | down hlast => exact ⟨hlast, h.tiling⟩
  | swapUp h0 =>
    refine ⟨?_, h.tiling.perm (exchange_perm _ _).symm⟩
    show s.cursor - 1 < (exchange (s.cursor - 1) s.loops).length
    rw [length_exchange]
    exact Nat.lt_of_le_of_lt (Nat.sub_le _ _) h.cursor
  | swapDown hlast =>
    refine ⟨?_, h.tiling.perm (exchange_perm _ _).symm⟩
    show s.cursor + 1 < (exchange s.cursor s.loops).length
    rw [length_exchange]
    exact hlast
  | merge ho hi hx ht =>
    obtain ⟨rest, hp, hp'⟩ := mergeAt_perm ho hi
    refine ⟨?_, ((h.tiling.perm hp).merge hx ht).perm hp'.symm⟩
    have hlast : s.cursor + 1 < s.loops.length := (List.getElem?_eq_some_iff.1 hi).1
    have hlen := hp.length_eq
    have hlen' := hp'.length_eq
    simp only [List.length_cons] at hlen hlen'
    show s.cursor < (mergeAt s.cursor s.loops).length
    omega
  | split hl hlt hdvd =>
    obtain ⟨rest, hp, hp'⟩ := splitAt_perm hl
    refine ⟨?_, ((h.tiling.perm hp).split (NestAction.mem_splitFactors hname) hlt hdvd).perm
      hp'.symm⟩
    have hcursor := h.cursor
    have hlen := hp.length_eq
    have hlen' := hp'.length_eq
    simp only [List.length_cons] at hlen hlen'
    show s.cursor < (splitAt _ s.cursor s.loops).length
    omega

/-! ### Actions by positions -/

/-- The loops with two of them exchanged, if both positions have one. -/
def swap? (i j : Nat) (loops : List Loop) : Option (List Loop) := do
  let a ← loops[i]?
  let b ← loops[j]?
  return (loops.set i b).set j a

/-- A product, if it fits. -/
def mul? (x y : UInt32) : Option UInt32 :=
  if x.toNat * y.toNat < UInt32.size then some (x * y) else none

/-- Does an action position by position.  There is no result where a position has no
    loop, a loop would stand beyond the end, the cursor would fall below zero, a divisor
    is zero or a product does not fit. -/
def carryOut? (s : Nest) : NestAction → Option Nest
  | .up => do
    guard (0 < s.cursor)
    return ⟨s.loops, s.cursor - 1⟩
  | .down => return ⟨s.loops, s.cursor + 1⟩
  | .swapUp => do
    guard (0 < s.cursor)
    return ⟨← swap? s.cursor (s.cursor - 1) s.loops, s.cursor - 1⟩
  | .swapDown => return ⟨← swap? s.cursor (s.cursor + 1) s.loops, s.cursor + 1⟩
  | .split factor => do
    let l ← s.loops[s.cursor]?
    guard (factor ≠ 0)
    let halved := s.loops.set s.cursor { l with size := l.size / factor }
    guard (s.cursor + 1 ≤ halved.length)
    return ⟨halved.insertIdx (s.cursor + 1) ⟨l.axis, factor, true⟩, s.cursor⟩
  | .merge => do
    let inner ← s.loops[s.cursor + 1]?
    let rest := s.loops.eraseIdx (s.cursor + 1)
    let outer ← rest[s.cursor]?
    return ⟨rest.set s.cursor { outer with size := ← mul? outer.size inner.size }, s.cursor⟩

/-- Every action that is accepted stays within the loops and within 32 bits. -/
def Safe (s : Nest) : Prop :=
  ∀ name action s', NestAction.ofName? name = some action → s.act action = .ok s' →
    s.carryOut? action = some s'

theorem Shaped.safe (h : s.Shaped extent) : s.Safe := by
  intro name action s' hname hact
  have hlt := h.cursor
  have hcursor : s.loops[s.cursor]? = some s.loops[s.cursor] := List.getElem?_eq_getElem hlt
  cases step_of_act hact with
  | up h0 => simp [carryOut?, guard, h0]
  | down hlast => rfl
  | swapUp h0 =>
    have hprev : s.cursor - 1 < s.loops.length := Nat.lt_of_le_of_lt (Nat.sub_le _ _) hlt
    have hp := List.getElem?_eq_getElem hprev
    have hc : s.loops[s.cursor - 1 + 1]? = some s.loops[s.cursor] := by
      rw [Nat.sub_add_cancel h0, hcursor]
    rw [exchange_eq_set hp hc, Nat.sub_add_cancel h0, List.set_comm _ _ (by omega)]
    simp [carryOut?, swap?, guard, h0, hcursor, hp]
  | swapDown hlast =>
    have hn := List.getElem?_eq_getElem hlast
    rw [exchange_eq_set hcursor hn]
    simp [carryOut?, swap?, hcursor, hn]
  | merge ho hi hx ht =>
    obtain ⟨rest, hp, -⟩ := mergeAt_perm ho hi
    have hmul := (h.tiling.perm hp).mul_lt hx ht
    rw [mergeAt_eq_eraseIdx ho hi]
    simp [carryOut?, mul?, hi, ho, List.getElem?_eraseIdx, hmul]
  | @split l factor hl _ _ =>
    have hfactor : factor ≠ 0 := by
      rintro rfl
      exact absurd (NestAction.mem_splitFactors hname) (by decide)
    rw [splitAt_eq_insertIdx hl]
    simp [carryOut?, guard, hl, hfactor, Nat.succ_le_of_lt hlt]

end Nest

/-! ## Agents -/

namespace LoopNest

/-- The extents of the axes of a matrix product. -/
def extent (m n k : UInt32) : Axis → UInt32
  | .m => m
  | .n => n
  | .k => k

/-- The nest is shaped, and so is every nest to go back to. -/
structure Shaped (extent : Axis → UInt32) (a : LoopNest) : Prop where
  nest : a.nest.Shaped extent
  saved : ∀ s ∈ a.saved, s.Shaped extent

variable {a : LoopNest} {name : String} {extent : Axis → UInt32}

theorem Shaped.apply (h : a.Shaped extent) (name : String) :
    (leftBy (Agent.apply name) a).Shaped extent := by
  show (leftBy (LoopNest.apply name) a).Shaped extent
  unfold leftBy LoopNest.apply
  cases hname : NestAction.ofName? name with
  | none => exact h
  | some action =>
    cases hact : a.nest.act action with
    | error detail => simpa [hact] using h
    | ok nest =>
      simp only [hact]
      refine ⟨h.nest.act hname hact, ?_⟩
      rintro s (_ | ⟨_, hs⟩)
      · exact h.nest
      · exact h.saved s hs

theorem Shaped.undo (h : a.Shaped extent) : (leftBy (α := LoopNest) Agent.undo a).Shaped extent := by
  show (leftBy LoopNest.undo a).Shaped extent
  unfold leftBy LoopNest.undo
  cases hsaved : a.saved with
  | nil => exact h
  | cons nest saved =>
    have hmem : ∀ s ∈ nest :: saved, s.Shaped extent := hsaved ▸ h.saved
    exact ⟨hmem nest (.head _), fun s hs => hmem s (.tail _ hs)⟩

theorem shaped_matmul (m n k : UInt32) : (matmul m n k).Shaped (LoopNest.extent m n k) := by
  have hbase : ∀ l ∈ (Nest.matmul m n k).loops, l.tiled = false := by simp [Nest.matmul]
  refine ⟨⟨Nat.zero_lt_succ 2, ?_, ?_, ?_, ?_⟩, fun s hs => absurd hs List.not_mem_nil⟩
  · intro x
    cases x <;> rfl
  · intro x
    cases x <;> simp [matmul, Nest.matmul, rounds, LoopNest.extent]
  · intro l hl ht
    exact absurd ht (by simp [hbase l hl])
  · intro l _ _ t ht htiled _
    exact absurd htiled (by simp [hbase t ht])

theorem shaped_after (m n k : UInt32) (calls : List Call) :
    (after (matmul m n k) calls).Shaped (LoopNest.extent m n k) :=
  after_keeps (fun name _ ha => ha.apply name) (fun _ ha => ha.undo)
    (fun _ ha => ⟨ha.nest, fun _ hs => absurd hs List.not_mem_nil⟩) calls (shaped_matmul m n k)

/-- **The shape of a loop nest**: after every sequence of calls, the loops of each axis
    are one base loop and tiles whose sizes multiply to its extent, the cursor is on one
    of the loops, all but three of which are tiles, and every action that is accepted
    stays within the loops and within 32 bits. -/
theorem after_matmul (m n k : UInt32) (calls : List Call) :
    (after (matmul m n k) calls).nest.Shaped (LoopNest.extent m n k) ∧
      (after (matmul m n k) calls).nest.tiles + 3 =
        (after (matmul m n k) calls).nest.loops.length ∧
      (after (matmul m n k) calls).nest.Safe := by
  have h := shaped_after m n k calls
  exact ⟨h.nest, h.nest.tiles, h.nest.safe⟩

end LoopNest

end ScheduleSearch

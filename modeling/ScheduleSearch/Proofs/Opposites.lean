/-
  Actions of a loop nest that take each other back.

  A move of the cursor, an exchange and a split have an opposite, and so has the merge of a
  tile whose size is a factor.  The opposite of a legal action is legal right after it, and it
  leads back to the nest.

  * `exchange_exchange`, `mergeAt_splitAt`, `splitAt_mergeAt`: so for the loops alone;
  * `Tiling.mul_div`: a merge can be undone by a split, because the shape of a nest leaves no
    loop of one round beside a tile and keeps the product within 32 bits;
  * `Nest.Opposite`: the action that takes another one back;
  * `Nest.Step.opposite`: the opposite of a step leads back to the nest;
  * **`LoopNest.opposite_restores`**: so for every nest that calls lead to, with both names in
    the history.
-/
import ScheduleSearch.Proofs.Spelling

namespace ScheduleSearch

/-! ## Loops in a list -/

section Loops

variable {i : Nat} {loops before rest : List Loop} {l outer inner : Loop} {factor x y : UInt32}

/-- The loops before and after a position. -/
theorem exists_around (h : loops[i]? = some l) :
    ∃ before rest, loops = before ++ l :: rest ∧ before.length = i := by
  obtain ⟨hlt, rfl⟩ := List.getElem?_eq_some_iff.1 h
  refine ⟨loops.take i, loops.drop (i + 1), ?_, List.length_take_of_le hlt.le⟩
  rw [List.getElem_cons_drop, List.take_append_drop]

theorem exists_around_pair (ho : loops[i]? = some outer) (hi : loops[i + 1]? = some inner) :
    ∃ before rest, loops = before ++ outer :: inner :: rest ∧ before.length = i := by
  obtain ⟨before, rest, rfl, rfl⟩ := exists_around ho
  have hnext : rest[0]? = some inner := by
    rw [List.getElem?_append_right (Nat.le_add_right _ 1), Nat.add_sub_cancel_left] at hi
    exact hi
  cases rest with
  | nil => cases hnext
  | cons l rest =>
    obtain rfl := Option.some.inj hnext
    exact ⟨before, rest, rfl, rfl⟩

theorem splitAt_append : splitAt factor before.length (before ++ l :: rest) =
    before ++ { l with size := l.size / factor } :: ⟨l.axis, factor, true⟩ :: rest := by
  induction before with
  | nil => rfl
  | cons l' before ih => exact congrArg (l' :: ·) ih

theorem mergeAt_append : mergeAt before.length (before ++ outer :: inner :: rest) =
    before ++ { outer with size := outer.size * inner.size } :: rest := by
  induction before with
  | nil => rfl
  | cons l before ih => exact congrArg (l :: ·) ih

theorem exchange_exchange (i : Nat) (loops : List Loop) :
    exchange i (exchange i loops) = loops := by
  induction loops generalizing i with
  | nil => cases i <;> rfl
  | cons l rest ih =>
    cases i with
    | zero => cases rest <;> rfl
    | succ i => exact congrArg (l :: ·) (ih i)

theorem div_mul_cancel_of_mod (h : x % y = 0) : x / y * y = x := by
  have hmod : x.toNat % y.toNat = 0 := by
    rw [← UInt32.toNat_mod, h]
    rfl
  have hnat : x.toNat / y.toNat * y.toNat = x.toNat :=
    Nat.div_mul_cancel (Nat.dvd_of_mod_eq_zero hmod)
  rw [← UInt32.toNat_inj, UInt32.toNat_mul, UInt32.toNat_div, hnat]
  exact Nat.mod_eq_of_lt x.toNat_lt

theorem mergeAt_splitAt (hl : loops[i]? = some l) (hdvd : l.size % factor = 0) :
    mergeAt i (splitAt factor i loops) = loops := by
  obtain ⟨before, rest, rfl, rfl⟩ := exists_around hl
  rw [splitAt_append, mergeAt_append, div_mul_cancel_of_mod hdvd]

theorem splitAt_mergeAt (ho : loops[i]? = some outer) (hi : loops[i + 1]? = some inner)
    (hx : outer.axis = inner.axis) (ht : inner.tiled)
    (hsize : outer.size * inner.size / inner.size = outer.size) :
    splitAt inner.size i (mergeAt i loops) = loops := by
  obtain ⟨before, rest, rfl, rfl⟩ := exists_around_pair ho hi
  have hinner : (⟨outer.axis, inner.size, true⟩ : Loop) = inner := by rw [hx, ← ht]
  rw [mergeAt_append, splitAt_append, hsize, hinner]

theorem getElem?_splitAt (hl : loops[i]? = some l) :
    (splitAt factor i loops)[i]? = some { l with size := l.size / factor } ∧
      (splitAt factor i loops)[i + 1]? = some ⟨l.axis, factor, true⟩ := by
  obtain ⟨before, rest, rfl, rfl⟩ := exists_around hl
  rw [splitAt_append]
  simp

theorem getElem?_mergeAt (ho : loops[i]? = some outer) (hi : loops[i + 1]? = some inner) :
    (mergeAt i loops)[i]? = some { outer with size := outer.size * inner.size } := by
  obtain ⟨before, rest, rfl, rfl⟩ := exists_around_pair ho hi
  rw [mergeAt_append]
  simp

end Loops

/-- Two sizes of a tiled axis are multiplied without loss, and the tile is a proper part. -/
theorem Tiling.mul_div {extent : Axis → UInt32} {rest : List Loop} {outer inner : Loop}
    (h : Tiling extent (outer :: inner :: rest)) (hx : outer.axis = inner.axis)
    (ht : inner.tiled) :
    outer.size * inner.size / inner.size = outer.size ∧
      outer.size * inner.size % inner.size = 0 ∧ inner.size < outer.size * inner.size := by
  have hmul : (outer.size * inner.size).toNat = outer.size.toNat * inner.size.toNat := by
    rw [UInt32.toNat_mul]
    exact Nat.mod_eq_of_lt (h.mul_lt hx ht)
  have hinner : 2 ≤ inner.size.toNat := h.two_le_tile (.tail _ (.head _)) ht
  have houter : 2 ≤ outer.size.toNat := h.two_le (.tail _ (.head _)) ht (.head _) hx
  refine ⟨?_, ?_, ?_⟩
  · rw [← UInt32.toNat_inj, UInt32.toNat_div, hmul]
    exact Nat.mul_div_cancel _ (by omega)
  · rw [← UInt32.toNat_inj, UInt32.toNat_mod, hmul]
    exact Nat.mul_mod_left _ _
  · rw [UInt32.lt_iff_toNat_lt, hmul]
    calc inner.size.toNat < 2 * inner.size.toNat := by omega
      _ ≤ outer.size.toNat * inner.size.toNat := Nat.mul_le_mul_right _ houter

/-! ## Nests -/

theorem NestAction.name_injective : Function.Injective NestAction.name := by
  have hplain : ∀ y ∈ [up, down, swapUp, swapDown, merge], ¬ "split_".toList <+: y.name.toList := by
    decide +kernel
  have hstem (factor : UInt32) : "split_".toList <+: (split factor).name.toList :=
    ⟨factor.toNat.repr.toList, by rw [name_split, String.toList_append]⟩
  intro x y h
  cases x with
  | split factor =>
    cases y with
    | split factor' =>
      have hchars := congrArg String.toList h
      rw [name_split, name_split, String.toList_append, String.toList_append] at hchars
      have hrepr := Nat.repr_inj.1 (String.toList_inj.1 (List.append_cancel_left hchars))
      rw [UInt32.toNat_inj.1 hrepr]
    | up | down | swapUp | swapDown | merge =>
      exact absurd (h ▸ hstem factor) (hplain _ (by simp))
  | up | down | swapUp | swapDown | merge =>
    cases y with
    | split factor => exact absurd (h.symm ▸ hstem factor) (hplain _ (by simp))
    | up | down | swapUp | swapDown | merge => simp_all [name]

namespace Nest

/-- `back` is to take `action` back: in `s` the opposite of a merge is the split by the size of
    the tile that is merged. -/
inductive Opposite (s : Nest) : NestAction → NestAction → Prop
  | up : Opposite s .up .down
  | down : Opposite s .down .up
  | swapUp : Opposite s .swapUp .swapDown
  | swapDown : Opposite s .swapDown .swapUp
  | split (factor : UInt32) : Opposite s (.split factor) .merge
  | merge {inner : Loop} : s.loops[s.cursor + 1]? = some inner → inner.size ∈ splitFactors →
      Opposite s .merge (.split inner.size)

variable {s s' : Nest} {action back : NestAction} {extent : Axis → UInt32}

theorem Opposite.mem_all (h : s.Opposite action back) : back ∈ NestAction.all := by
  cases h with
  | merge _ hfactor => exact List.mem_append_right _ (List.mem_map_of_mem hfactor)
  | up | down | swapUp | swapDown | split => decide

/-- What `Step` says of an action is what the action does. -/
theorem Step.act (h : s.Step action s') : s.act action = .ok s' := by
  cases h with
  | up h0 => exact if_pos h0
  | down hlast => exact if_pos (by omega)
  | swapUp h0 => exact if_pos h0
  | swapDown hlast => exact if_pos (by omega)
  | merge ho hi hx ht => exact if_pos (by simp [canMerge, ho, hi, hx, ht])
  | split hl hlt hdvd => exact if_pos (by simp [canSplit, hl, hlt, hdvd])

/-- **The opposite of a step** leads back to the nest. -/
theorem Step.opposite (hstep : s.Step action s') (hs : s.Shaped extent)
    (h : s.Opposite action back) : s'.Step back s := by
  have hcursor := hs.cursor
  obtain ⟨loops, cursor⟩ := s
  dsimp only at hcursor
  cases hstep with
  | up h0 =>
    cases h
    dsimp only at h0 ⊢
    have hlast : cursor - 1 + 1 < loops.length := by omega
    have hback := Step.down (s := ⟨loops, cursor - 1⟩) hlast
    rwa [Nat.sub_add_cancel h0] at hback
  | down hlast =>
    cases h
    exact Step.up (s := ⟨loops, cursor + 1⟩) (Nat.succ_pos cursor)
  | swapUp h0 =>
    cases h
    dsimp only at h0 ⊢
    have hlast : cursor - 1 + 1 < (exchange (cursor - 1) loops).length := by
      rw [length_exchange]
      omega
    have hback := Step.swapDown (s := ⟨exchange (cursor - 1) loops, cursor - 1⟩) hlast
    rwa [exchange_exchange, Nat.sub_add_cancel h0] at hback
  | swapDown hlast =>
    cases h
    have hback := Step.swapUp (s := ⟨exchange cursor loops, cursor + 1⟩) (Nat.succ_pos cursor)
    rwa [Nat.add_sub_cancel, exchange_exchange] at hback
  | split hl hlt hdvd =>
    cases h
    obtain ⟨houter, hinner⟩ := getElem?_splitAt hl
    have hback := Step.merge (s := ⟨splitAt _ cursor loops, cursor⟩) houter hinner rfl rfl
    rwa [mergeAt_splitAt hl hdvd] at hback
  | merge ho hi hx ht =>
    cases h with
    | merge hi' hfactor =>
      obtain rfl := Option.some.inj (hi'.symm.trans hi)
      obtain ⟨rest, hperm, -⟩ := mergeAt_perm ho hi
      obtain ⟨hdiv, hmod, hlt⟩ := (hs.tiling.perm hperm).mul_div hx ht
      have hback := Step.split (s := ⟨mergeAt cursor loops, cursor⟩) (getElem?_mergeAt ho hi)
        hlt hmod
      rwa [splitAt_mergeAt ho hi hx ht hdiv] at hback

end Nest

/-! ## Agents -/

namespace LoopNest

open Agent NestAction

variable {a : LoopNest} {action back : NestAction} {nest : Nest}

/-- A step by its name. -/
theorem moves_of_step (hall : action ∈ NestAction.all) (hstep : a.nest.Step action nest) :
    Moves a action.name ⟨nest, a.actions ++ [action.name], a.nest :: a.saved⟩ :=
  (moves_iff_act (ofName?_name hall)).2 ⟨nest, hstep.act, rfl⟩

theorem mem_available_of_step (hall : action ∈ NestAction.all) (hstep : a.nest.Step action nest) :
    action.name ∈ Agent.available a :=
  List.mem_map_of_mem (Nest.mem_available_iff.2 ⟨hall, nest, hstep.act⟩)

/-- **Opposite actions**: after every sequence of calls, the opposite of a listed action is
    listed right after it, and the two restore the dump.  They add their names to the history
    and nothing else. -/
theorem opposite_restores (m n k : UInt32) (calls : List Call) {action back : NestAction}
    (hlisted : action.name ∈ Agent.available (after (matmul m n k) calls))
    (hback : (after (matmul m n k) calls).nest.Opposite action back) :
    ∃ b c, Moves (after (matmul m n k) calls) action.name b ∧
      back.name ∈ Agent.available b ∧ Moves b back.name c ∧
      dump c = dump (after (matmul m n k) calls) ∧
      history c = history (after (matmul m n k) calls) ++ [action.name, back.name] := by
  have hshaped := (shaped_after m n k calls).nest
  generalize after (matmul m n k) calls = a at *
  obtain ⟨x, hx, hname⟩ := List.mem_map.1 hlisted
  obtain rfl := name_injective hname
  obtain ⟨hall, nest, hact⟩ := Nest.mem_available_iff.1 hx
  have hstep : a.nest.Step x nest := Nest.step_of_act hact
  have hreturn : nest.Step back a.nest := hstep.opposite hshaped hback
  refine ⟨_, _, moves_of_step hall hstep, mem_available_of_step hback.mem_all hreturn,
    moves_of_step hback.mem_all hreturn, rfl, ?_⟩
  show a.actions ++ [x.name] ++ [back.name] = a.actions ++ [x.name, back.name]
  rw [List.append_assoc, List.singleton_append]

/-- A tile of a tile is merged into it, and split off again. -/
theorem opposite_restores_tile :
    let calls : List Call := [.apply "down", .replay ["split_16", "down", "split_4"]]
    let a := after (matmul 8 64 8) calls
    (merge.name ∈ Agent.available a ∧ a.nest.Opposite merge (split 4)) ∧
      ∃ b c, Moves a merge.name b ∧ (split 4).name ∈ Agent.available b ∧
        Moves b (split 4).name c ∧ dump c = dump a ∧
        history c = history a ++ [merge.name, (split 4).name] := by
  intro calls a
  have hlisted : merge.name ∈ Agent.available a := by decide +kernel
  have hback : a.nest.Opposite merge (split 4) :=
    @Nest.Opposite.merge _ ⟨.n, 4, true⟩ (by decide +kernel) (by decide)
  exact ⟨⟨hlisted, hback⟩, opposite_restores 8 64 8 calls hlisted hback⟩

end LoopNest

end ScheduleSearch

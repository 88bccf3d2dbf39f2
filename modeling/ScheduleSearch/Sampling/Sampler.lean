/-
  Seeded sampling of candidates.

  A sampler is a key and a place in its stream of words.  `index s n` is a
  number below `n`, each equally likely: a word is drawn again while its
  product with `n` falls into the incomplete last share.  `shuffle` exchanges
  each entry, from the last to the second, with one at or before it, so it
  only reorders (`shuffle_perm`).
-/
import ScheduleSearch.Sampling.Keystream

namespace ScheduleSearch

/-- A place in the stream of words of a key. -/
structure Sampler where
  key : Vector UInt32 8
  position : Nat

namespace Sampler

/-- The start of the stream of a seed. -/
def ofSeed (seed : UInt64) : Sampler :=
  ⟨Keystream.keyOfSeed seed, 0⟩

/-- The next word of the stream. -/
def next (s : Sampler) : UInt32 × Sampler :=
  (Keystream.wordAt s.key s.position, { s with position := s.position + 1 })

/-- The last low half of a product with `n` that is accepted: `n` shifted left
    until its highest of 32 bits is set, less one. -/
def zone (n : Nat) : Nat :=
  n * Nat.pow 2 (31 - Nat.log2 n) - 1

/-- A number below `n`, after at most `tries` refused words.  At least half of
    all words are accepted. -/
def draw (n : Nat) : Nat → Sampler → Nat × Sampler
  | 0, s => (s.next.1.toNat * n / 0x100000000, s.next.2)
  | tries + 1, s =>
    let product := s.next.1.toNat * n
    if product % 0x100000000 ≤ zone n then (product / 0x100000000, s.next.2)
    else draw n tries s.next.2

/-- How many refused words `index` puts up with. -/
def patience : Nat := 4096

/-- A number below `n`, for `0 < n < 2 ^ 32`. -/
def index (s : Sampler) (n : Nat) : Nat × Sampler :=
  draw n patience s

/-- Exchanges the entries `i`, …, `1` each with one at or before it. -/
def shuffleFrom {α : Type} : Nat → Array α → Sampler → Array α × Sampler
  | 0, xs, s => (xs, s)
  | i + 1, xs, s =>
    let (j, s) := s.index (i + 2)
    shuffleFrom i (xs.swapIfInBounds (i + 1) j) s

/-- The entries of `xs` in a random order.  Fewer than two entries draw nothing. -/
def shuffle {α : Type} (s : Sampler) (xs : List α) : List α × Sampler :=
  let r := shuffleFrom (xs.length - 1) xs.toArray s
  (r.1.toList, r.2)

theorem shuffleFrom_perm {α : Type} (i : Nat) (xs : Array α) (s : Sampler) :
    (shuffleFrom i xs s).1.Perm xs := by
  induction i generalizing xs s with
  | zero => exact .refl _
  | succ i ih =>
    refine (ih _ _).trans ?_
    unfold Array.swapIfInBounds
    split
    · split
      · exact Array.swap_perm ..
      · exact .refl _
    · exact .refl _

theorem shuffle_perm {α : Type} (s : Sampler) (xs : List α) : (s.shuffle xs).1.Perm xs := by
  have h := shuffleFrom_perm (xs.length - 1) xs.toArray s
  exact Array.perm_iff_toList_perm.1 h

end Sampler

end ScheduleSearch

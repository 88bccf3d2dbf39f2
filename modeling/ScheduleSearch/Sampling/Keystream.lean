/-
  The stream of 32-bit words behind seeded sampling: ChaCha with twelve rounds
  under a key that is spread from a 64-bit seed.

  `wordAt key n` is the word at position `n`: word `n % 16` of block `n / 16`,
  so a place in the stream is a number and no block is ever stored.
-/

namespace ScheduleSearch.Keystream

/-- `x` rotated left by `n` bits, `0 < n < 32`. -/
def rotateLeft (x n : UInt32) : UInt32 :=
  (x <<< n) ||| (x >>> (32 - n))

abbrev Block := Vector UInt32 16

/-- One quarter round on the words `a`, `b`, `c` and `d` of a block. -/
def quarter (s : Block) (a b c d : Fin 16) : Block :=
  let xa := s[a] + s[b]
  let xd := rotateLeft (s[d] ^^^ xa) 16
  let xc := s[c] + xd
  let xb := rotateLeft (s[b] ^^^ xc) 12
  let xa := xa + xb
  let xd := rotateLeft (xd ^^^ xa) 8
  let xc := xc + xd
  let xb := rotateLeft (xb ^^^ xc) 7
  (((s.set a xa).set b xb).set c xc).set d xd

/-- Two rounds: the columns, then the diagonals. -/
def doubleRound (s : Block) : Block :=
  let s := quarter s 0 4 8 12
  let s := quarter s 1 5 9 13
  let s := quarter s 2 6 10 14
  let s := quarter s 3 7 11 15
  let s := quarter s 0 5 10 15
  let s := quarter s 1 6 11 12
  let s := quarter s 2 7 8 13
  quarter s 3 4 9 14

def doubleRounds : Nat → Block → Block
  | 0, s => s
  | n + 1, s => doubleRounds n (doubleRound s)

/-- The constants, the key, and the number of the block. -/
def initial (key : Vector UInt32 8) (n : Nat) : Block :=
  #v[0x61707865, 0x3320646e, 0x79622d32, 0x6b206574, key[0], key[1], key[2], key[3], key[4],
    key[5], key[6], key[7], n.toUInt32, (n / 0x100000000).toUInt32, 0, 0]

def block (key : Vector UInt32 8) (n : Nat) : Block :=
  (initial key n).zipWith (· + ·) (doubleRounds 6 (initial key n))

/-- The word at position `n` of the stream. -/
def wordAt (key : Vector UInt32 8) (n : Nat) : UInt32 :=
  (block key (n / 16)).get ⟨n % 16, Nat.mod_lt _ (by decide)⟩

/-- The seed of the next key word. -/
def advance (s : UInt64) : UInt64 :=
  s * 6364136223846793005 + 11634580027462260723

/-- The key word of an advanced seed: its high bits folded and rotated. -/
def keyWord (s : UInt64) : UInt32 :=
  let x := (((s >>> 18) ^^^ s) >>> 27).toUInt32
  let r := (s >>> 59).toUInt32
  if r = 0 then x else (x >>> r) ||| (x <<< (32 - r))

/-- The first `n` key words of a seed. -/
def keyWords : Nat → UInt64 → List UInt32
  | 0, _ => []
  | n + 1, s => keyWord (advance s) :: keyWords n (advance s)

def keyOfSeed (seed : UInt64) : Vector UInt32 8 :=
  ⟨(keyWords 8 seed).toArray, rfl⟩

end ScheduleSearch.Keystream

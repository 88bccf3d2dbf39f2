/-
  Content hashes and the fingerprints of states.

  A content hash is the name of its algorithm, a colon, and the digest of a
  domain followed by the data, in hexadecimal.  It keeps the place of its colon,
  which its text determines; so hashes are equal, and are ordered, as their texts
  are (`ContentHash.ext_text`, `ContentHash.compare_eq`).  A domain ends with a
  zero byte and has no other, so messages of two domains differ.  A fingerprint
  is the content hash of a state's dump.
-/
import ScheduleSearch.Digest.Sha256

namespace ScheduleSearch

/-- A digest with the name of its algorithm before a colon. -/
structure ContentHash where
  text : String
  /-- how many characters stand before the colon -/
  colon : Nat
  colon_eq : text.toList.idxOf? ':' = some colon
deriving DecidableEq, Repr

/-- The hexadecimal digit of `n < 16`, in lower case. -/
def hexDigit (n : Nat) : Char :=
  if n < 10 then Char.ofNat (48 + n) else Char.ofNat (87 + n)

def hex (bytes : List UInt8) : List Char :=
  bytes.flatMap fun b => [hexDigit (b.toNat / 16), hexDigit (b.toNat % 16)]

theorem hexDigit_mem : ∀ n < 16, hexDigit n ∈ "0123456789abcdef".toList := by
  decide

theorem mem_hex {bytes : List UInt8} {c : Char} (h : c ∈ hex bytes) :
    c ∈ "0123456789abcdef".toList := by
  obtain ⟨b, -, hc⟩ := List.mem_flatMap.1 h
  have hb := b.toNat_lt
  rcases List.mem_cons.1 hc with rfl | hc
  · exact hexDigit_mem _ (by omega)
  · rw [List.mem_singleton.1 hc]
    exact hexDigit_mem _ (Nat.mod_lt _ (by decide))

namespace ContentHash

/-- The text of a digest; `sha256` has six characters. -/
def ofDigest (d : Digest) : ContentHash where
  text := String.ofList ("sha256:".toList ++ hex d.bytes)
  colon := 6
  colon_eq := by rw [String.toList_ofList]; rfl

/-- The bytes that are hashed for `data` in a domain. -/
def message (domain data : List UInt8) : List UInt8 :=
  domain ++ data

def of (domain data : List UInt8) : ContentHash :=
  ofDigest (Sha256.digest (message domain data))

/-- The text before the colon. -/
def algorithm (h : ContentHash) : String :=
  String.ofList (h.text.toList.take h.colon)

/-- The text after the colon. -/
def hexDigest (h : ContentHash) : String :=
  String.ofList (h.text.toList.drop (h.colon + 1))

theorem toList_ofDigest (d : Digest) :
    (ofDigest d).text.toList = ['s', 'h', 'a', '2', '5', '6', ':'] ++ hex d.bytes :=
  String.toList_ofList

theorem algorithm_ofDigest (d : Digest) : (ofDigest d).algorithm = "sha256" := by
  rw [algorithm, toList_ofDigest]
  rfl

theorem hexDigest_ofDigest (d : Digest) : (ofDigest d).hexDigest = String.ofList (hex d.bytes) := by
  rw [hexDigest, toList_ofDigest]
  rfl

/-- The bytes of a text, with a zero byte after them. -/
def domain (name : String) : List UInt8 :=
  name.toUTF8.data.toList ++ [0]

def stateDomain : List UInt8 := domain "LOOPTUNE::AGENT_STATE::V1"

def modelDomain : List UInt8 := domain "LOOPTUNE::MODEL_FILE::V1"

variable {a b : ContentHash}

/-- The text determines the hash. -/
theorem ext_text (h : a.text = b.text) : a = b := by
  obtain ⟨text, i, hi⟩ := a
  obtain ⟨_, j, hj⟩ := b
  obtain rfl := h
  obtain rfl := Option.some.inj (hi.symm.trans hj)
  rfl

/-- Hashes are compared by their texts, then by the places of their colons. -/
instance : Ord ContentHash :=
  ⟨fun a b => (compare a.text b.text).then (compare a.colon b.colon)⟩

/-- The places of the colons have no part in a comparison. -/
theorem compare_eq (a b : ContentHash) : compare a b = compare a.text b.text := by
  show (compare a.text b.text).then (compare a.colon b.colon) = _
  cases h : compare a.text b.text with
  | eq =>
    rw [ext_text (Std.LawfulEqOrd.eq_of_compare h), Std.ReflOrd.compare_self]
    rfl
  | lt | gt => rfl

end ContentHash

/-- The key of a visited state: a function of its dump alone. -/
structure Fingerprint where
  hash : ContentHash
deriving DecidableEq, Repr

namespace Fingerprint

def ofDump (dump : String) : Fingerprint :=
  ⟨.of ContentHash.stateDomain dump.toUTF8.data.toList⟩

def text (fp : Fingerprint) : String := fp.hash.text

/-- The first twelve hexadecimal digits. -/
def short (fp : Fingerprint) : String :=
  String.ofList (fp.hash.hexDigest.toList.take 12)

instance : Ord Fingerprint := ⟨fun a b => compare a.hash b.hash⟩

/-- Fingerprints are ordered by their texts. -/
theorem compare_eq (a b : Fingerprint) : compare a b = compare a.text b.text :=
  ContentHash.compare_eq a.hash b.hash

theorem text_injective {a b : Fingerprint} (h : a.text = b.text) : a = b :=
  congrArg Fingerprint.mk (ContentHash.ext_text h)

instance : Std.TransOrd Fingerprint where
  eq_swap {a b} := by
    rw [compare_eq, compare_eq]
    exact Std.OrientedOrd.eq_swap
  isLE_trans {a b c} h h' := by
    rw [compare_eq] at h h' ⊢
    exact Std.TransOrd.isLE_trans h h'

instance : Std.LawfulEqOrd Fingerprint where
  compare_self {a} := by
    rw [compare_eq]
    exact Std.ReflOrd.compare_self
  eq_of_compare {a b} h := by
    rw [compare_eq] at h
    exact text_injective (Std.LawfulEqOrd.eq_of_compare h)

end Fingerprint

end ScheduleSearch

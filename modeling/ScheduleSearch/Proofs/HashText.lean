/-
  What content hashes keep apart, and the order of their texts.

  A domain has one zero byte, at its end, so a message of a domain shows where its data
  begins.  A digest is written byte by byte, each as two digits, and the digits are ordered as
  the numbers that they stand for.

  * `compare_hex`: hexadecimal text is ordered as the bytes that it spells;
  * `IsDomain.message_inj`: a message determines its domain and its data, whatever bytes the
    data has;
  * `Rendered`: the parts of the text of a hash;
  * `Wired.nodeList_ascending`: the nodes of a graph stand in the order of those texts;
  * **`ContentHash.renders_faithfully`**: messages of two domains differ, and the text of a
    digest is cut at its colon and is equal to others, and ordered among them, as the digest
    is.
-/
import ScheduleSearch.Proofs.GraphCalls

namespace ScheduleSearch

/-! ## Comparing -/

/-- Lists are compared by their first items, then by the others. -/
theorem compare_cons {α : Type} [Ord α] (x y : α) (xs ys : List α) :
    compare (x :: xs) (y :: ys) = (compare x y).then (compare xs ys) :=
  List.compareLex_cons_cons

theorem compare_hexDigit : ∀ m < 16, ∀ n < 16, compare (hexDigit m) (hexDigit n) = compare m n := by
  decide

/-- Bytes are compared by their high halves, then by their low ones. -/
theorem compare_byte (b c : UInt8) : compare b c =
    (compare (b.toNat / 16) (c.toNat / 16)).then (compare (b.toNat % 16) (c.toNat % 16)) := by
  cases h : compare b c with
  | lt =>
    have hlt : b.toNat < c.toNat := UInt8.lt_iff_toNat_lt.1 (Std.compare_eq_lt.1 h)
    symm
    rw [Ordering.then_eq_lt, Nat.compare_eq_lt, Nat.compare_eq_eq, Nat.compare_eq_lt]
    omega
  | eq =>
    obtain rfl := Std.LawfulEqOrd.eq_of_compare h
    simp
  | gt =>
    have hlt : c.toNat < b.toNat := UInt8.lt_iff_toNat_lt.1 (Std.compare_eq_gt.1 h)
    symm
    rw [Ordering.then_eq_gt, Nat.compare_eq_gt, Nat.compare_eq_eq, Nat.compare_eq_gt]
    omega

theorem hex_cons (b : UInt8) (bytes : List UInt8) :
    hex (b :: bytes) = hexDigit (b.toNat / 16) :: hexDigit (b.toNat % 16) :: hex bytes :=
  rfl

theorem length_hex (bytes : List UInt8) : (hex bytes).length = 2 * bytes.length := by
  induction bytes with
  | nil => rfl
  | cons b bytes ih =>
    simp only [hex_cons, List.length_cons, ih]
    omega

/-- Hexadecimal text is ordered as the bytes that it spells. -/
theorem compare_hex (bytes bytes' : List UInt8) :
    compare (hex bytes) (hex bytes') = compare bytes bytes' := by
  induction bytes generalizing bytes' with
  | nil => cases bytes' <;> rfl
  | cons b bytes ih =>
    cases bytes' with
    | nil => rfl
    | cons c bytes' =>
      have hb := b.toNat_lt
      have hc := c.toNat_lt
      rw [hex_cons, hex_cons, compare_cons, compare_cons, compare_cons b c, ih, compare_byte b c,
        compare_hexDigit _ (by omega) _ (by omega), compare_hexDigit _ (by omega) _ (by omega),
        Ordering.then_assoc]

theorem compare_chars_lt_iff {cs ds : List Char} : compare cs ds = .lt ↔ cs < ds := by
  induction cs generalizing ds with
  | nil => cases ds <;> simp [compare, List.compareLex]
  | cons c cs ih =>
    cases ds with
    | nil => simp [compare, List.compareLex]
    | cons d ds =>
      have hchar : compare c d = .lt ↔ c < d := compareOfLessAndEq_eq_lt
      rw [compare_cons, Ordering.then_eq_lt, List.cons_lt_cons_iff, ih, hchar,
        Std.LawfulEqOrd.compare_eq_iff_eq]

/-- Texts are compared character by character. -/
theorem compare_text (s t : String) : compare s t = compare s.toList t.toList := by
  have hlt : compare s t = .lt ↔ compare s.toList t.toList = .lt := by
    rw [compare_chars_lt_iff, ← String.lt_iff_toList_lt]
    exact compareOfLessAndEq_eq_lt
  have heq : compare s t = .eq ↔ compare s.toList t.toList = .eq := by
    simp [String.toList_inj]
  -- the two agree on less and on equal, so on greater
  cases h : compare s t <;> cases h' : compare s.toList t.toList <;> simp_all

/-- A common beginning has no part in a comparison. -/
theorem compare_append (cs ds es : List Char) : compare (cs ++ ds) (cs ++ es) = compare ds es := by
  induction cs with
  | nil => rfl
  | cons c cs ih =>
    rw [List.cons_append, List.cons_append, compare_cons, Std.ReflOrd.compare_self, ih]
    rfl

/-! ## Domains -/

namespace ContentHash

/-- Domains have one zero byte, at the end. -/
structure IsDomain (bytes : List UInt8) : Prop where
  last : bytes.getLast? = some 0
  once : bytes.count 0 = 1

variable {x y a b : List UInt8}

theorem isDomain_append_zero (h : 0 ∉ x) : IsDomain (x ++ [0]) where
  last := List.getLast?_concat
  once := by simp [List.count_eq_zero_of_not_mem h]

theorem IsDomain.exists_name (h : IsDomain x) : ∃ name, 0 ∉ name ∧ x = name ++ [0] := by
  obtain ⟨name, rfl⟩ := List.getLast?_eq_some_iff.1 h.last
  refine ⟨name, ?_, rfl⟩
  have honce := h.once
  rw [List.count_append, List.count_singleton_self] at honce
  exact List.count_eq_zero.1 (by omega)

/-- A message determines its domain, which ends at the first zero byte, and its data. -/
theorem IsDomain.message_inj (hx : IsDomain x) (hy : IsDomain y)
    (h : message x a = message y b) : x = y ∧ a = b := by
  obtain ⟨p, hp, rfl⟩ := hx.exists_name
  obtain ⟨q, hq, rfl⟩ := hy.exists_name
  have hcut : ∀ {name : List UInt8} (data : List UInt8), 0 ∉ name →
      (message (name ++ [0]) data).takeWhile (· ≠ 0) = name := by
    intro name data hname
    rw [message, List.append_assoc, List.takeWhile_append_of_pos]
    · simp
    · intro c hc
      simpa using fun hzero : c = 0 => hname (hzero ▸ hc)
  obtain rfl : p = q := by rw [← hcut a hp, h, hcut b hq]
  exact ⟨rfl, List.append_cancel_left h⟩

theorem isDomain_stateDomain : IsDomain stateDomain :=
  isDomain_append_zero (by decide +kernel)

theorem isDomain_modelDomain : IsDomain modelDomain :=
  isDomain_append_zero (by decide +kernel)

/-! ## Texts -/

/-- The text of a hash is the name of the algorithm, a colon and 64 hexadecimal digits in lower
    case, and the hash is cut at that colon, whose place it keeps. -/
structure Rendered (h : ContentHash) : Prop where
  text : h.text = h.algorithm ++ ":" ++ h.hexDigest
  colon : h.text.toList.idxOf? ':' = some h.colon
  algorithm : h.algorithm = "sha256"
  length : h.hexDigest.length = 64
  digits : ∀ c ∈ h.hexDigest.toList, c ∈ "0123456789abcdef".toList

theorem rendered_ofDigest (d : Digest) : (ofDigest d).Rendered where
  text := by
    rw [← String.toList_inj, toList_ofDigest, algorithm_ofDigest, hexDigest_ofDigest]
    simp
  colon := (ofDigest d).colon_eq
  algorithm := algorithm_ofDigest d
  length := by
    rw [hexDigest_ofDigest, String.length_ofList, length_hex, d.length_bytes]
  digits c hc := by
    rw [hexDigest_ofDigest, String.toList_ofList] at hc
    exact mem_hex hc

/-- Texts are ordered as the digests. -/
theorem compare_ofDigest (d e : Digest) :
    compare (ofDigest d).text (ofDigest e).text = compare d.bytes e.bytes :=
  calc compare (ofDigest d).text (ofDigest e).text
      = compare (hex d.bytes) (hex e.bytes) := by
        rw [compare_text, toList_ofDigest, toList_ofDigest, compare_append]
    _ = compare d.bytes e.bytes := compare_hex _ _

theorem ofDigest_inj (d e : Digest) : ofDigest d = ofDigest e ↔ d.bytes = e.bytes := by
  constructor
  · intro h
    have hself := compare_ofDigest d e
    rw [h, Std.ReflOrd.compare_self] at hself
    exact Std.LawfulEqOrd.eq_of_compare hself.symm
  · intro h
    refine ext_text ?_
    rw [← String.toList_inj, toList_ofDigest, toList_ofDigest, h]

end ContentHash

/-! ## Nodes -/

/-- The nodes of a graph stand in the order of the texts of their hashes. -/
theorem Graph.Wired.nodeList_ascending {g : Graph} (h : g.Wired) :
    g.nodeList.Pairwise fun m n => compare m.fingerprint.text n.fingerprint.text = .lt := by
  have hkey : ∀ p ∈ g.nodes.toList, p.2.fingerprint = p.1 := fun p hp =>
    h.keyed (Std.TreeMap.mem_toList_iff_getElem?_eq_some.1 hp)
  have hkeys : (g.nodes.toList.map (·.1)).Pairwise fun a b => compare a b = .lt := by
    rw [Std.TreeMap.map_fst_toList_eq_keys]
    exact Std.TreeMap.ordered_keys
  rw [nodeList_eq, List.pairwise_map]
  refine (List.pairwise_map.1 hkeys).imp_of_mem fun {p q} hp hq hpq => ?_
  rw [hkey p hp, hkey q hq, ← Fingerprint.compare_eq]
  exact hpq

namespace ContentHash

/-- **Hashes keep messages apart, and their texts are faithful.**  Messages of two domains
    differ, whatever data they have, so also where the data spells a domain.  The text of any
    digest is cut at its colon, is equal to another one exactly if the digests are equal, and
    is ordered as the digests are; the nodes of a graph stand in that order, after any
    calls. -/
theorem renders_faithfully :
    (IsDomain stateDomain ∧ IsDomain modelDomain) ∧
      (∀ x y, IsDomain x → IsDomain y → x ≠ y → ∀ a b, message x a ≠ message y b) ∧
      (∀ x a, of x a = ofDigest (Sha256.digest (message x a))) ∧
      (∀ d e : Digest, (ofDigest d).Rendered ∧
        (ofDigest d = ofDigest e ↔ d.bytes = e.bytes) ∧
        compare (ofDigest d).text (ofDigest e).text = compare d.bytes e.bytes) ∧
      ∀ (seed : UInt64) (calls : List GraphCall),
        ((Graph.empty seed).afterAll calls).nodeList.Pairwise fun m n =>
          compare m.fingerprint.text n.fingerprint.text = .lt := by
  refine ⟨⟨isDomain_stateDomain, isDomain_modelDomain⟩, ?_, fun _ _ => rfl, ?_, ?_⟩
  · intro x y hx hy hne a b h
    exact hne (hx.message_inj hy h).1
  · exact fun d e => ⟨rendered_ofDigest d, ofDigest_inj d e, compare_ofDigest d e⟩
  · exact fun seed calls => (Graph.wired_afterAll seed calls).nodeList_ascending

/-- The data of each message begins with the domain of the other one. -/
theorem renders_faithfully_nested :
    (IsDomain stateDomain ∧ IsDomain modelDomain ∧ stateDomain ≠ modelDomain) ∧
      message stateDomain (modelDomain ++ [0]) ≠ message modelDomain (stateDomain ++ [0]) := by
  have hne : stateDomain ≠ modelDomain := by decide +kernel
  obtain ⟨⟨hstate, hmodel⟩, hapart, -⟩ := renders_faithfully
  exact ⟨⟨hstate, hmodel, hne⟩, hapart _ _ hstate hmodel hne _ _⟩

end ContentHash

end ScheduleSearch

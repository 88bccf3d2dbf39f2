/-
  Strings that are written as JSON read back.

  A string is written character by character, and its reader goes byte by byte: a plain
  character gives the bytes of its encoding, an escaped one a byte or a 16-bit unit.

  * `utf8` are the bytes of a text;
  * `ReadsAs`: what the reader makes of the escape of a character spells that character
    (`exists_readsAs`);
  * **`token?_writeText`**: a written string is one token, whatever comes after it, and the
    token spells the string.
-/
import Mathlib.Data.List.Basic
import ScheduleSearch.Json.Value
import ScheduleSearch.Json.Writer

namespace ScheduleSearch.Json

/-- The bytes of a text. -/
def utf8 (s : String) : List UInt8 := s.toUTF8.data.toList

theorem utf8_append (s t : String) : utf8 (s ++ t) = utf8 s ++ utf8 t := by
  simp [utf8]

theorem utf8_ofList (cs : List Char) :
    utf8 (String.ofList cs) = cs.flatMap String.utf8EncodeChar := by
  simp [utf8, List.utf8Encode]

theorem utf8_eq (s : String) : utf8 s = s.toList.flatMap String.utf8EncodeChar := by
  rw [← utf8_ofList, String.ofList_toList]

theorem utf8EncodeChar_ascii {c : Char} (h : c.toNat < 0x80) :
    String.utf8EncodeChar c = [byteOf c] := by
  have hc : c.val.toNat ≤ 0x7f := Nat.le_of_lt_succ h
  unfold String.utf8EncodeChar
  rw [if_pos hc]
  rfl

theorem utf8_ascii {s : String} (h : ∀ c ∈ s.toList, c.toNat < 0x80) :
    utf8 s = s.toList.map byteOf := by
  rw [utf8_eq, List.map_eq_flatMap]
  exact List.flatMap_congr fun c hc => utf8EncodeChar_ascii (h c hc)

theorem fromUTF8?_utf8 (s : String) : String.fromUTF8? ⟨(utf8 s).toArray⟩ = some s := by
  have hbytes : (⟨(utf8 s).toArray⟩ : ByteArray) = s.toByteArray := by simp [utf8]
  rw [hbytes, String.fromUTF8?, dif_pos s.isValidUTF8]
  rfl

/-- A character outside ASCII has no byte of an ASCII character. -/
theorem toNat_of_mem_utf8EncodeChar {c : Char} {b : UInt8} (h : b ∈ String.utf8EncodeChar c) :
    b.toNat = c.toNat ∨ 0x80 ≤ b.toNat := by
  have hhigh {n k : Nat} (hn : n < 0x80) (hk : 0x80 ≤ k ∧ k + n < 0x100) :
      0x80 ≤ (UInt8.ofNat (n + k)).toNat := by
    rw [UInt8.toNat_ofNat', Nat.mod_eq_of_lt (by omega)]
    omega
  unfold String.utf8EncodeChar at h
  dsimp only at h
  split at h
  · next hc =>
    refine .inl ?_
    rw [List.mem_singleton.1 h, UInt8.toNat_ofNat', Nat.mod_eq_of_lt (by omega)]
    rfl
  · refine .inr ?_
    split at h
    · simp only [List.mem_cons, List.not_mem_nil, or_false] at h
      rcases h with rfl | rfl <;> exact hhigh (by omega) (by omega)
    · split at h
      · simp only [List.mem_cons, List.not_mem_nil, or_false] at h
        rcases h with rfl | rfl | rfl <;> exact hhigh (by omega) (by omega)
      · simp only [List.mem_cons, List.not_mem_nil, or_false] at h
        rcases h with rfl | rfl | rfl | rfl <;> exact hhigh (by omega) (by omega)

/-- Bytes that stand for themselves in a string. -/
def Plain (b : UInt8) : Prop :=
  b ≠ byteOf '"' ∧ ¬ b < 0x20 ∧ b ≠ byteOf '\\'

theorem spelling?_plain {bytes : List UInt8} (h : ∀ b ∈ bytes, Plain b) (rest : List UInt8) :
    spelling? (bytes ++ rest) =
      (spelling? rest).map fun r => (bytes.map .byte ++ r.1, r.2) := by
  induction bytes with
  | nil => simp
  | cons b bytes ih =>
    obtain ⟨⟨hquote, hcontrol, hslash⟩, hbytes⟩ := List.forall_mem_cons.1 h
    rw [List.cons_append, spelling?.eq_def]
    simp only [if_neg hquote, if_neg hcontrol, if_neg hslash, ih hbytes, Option.map_map]
    rfl

theorem bytes?_plain (bytes : List UInt8) (s : Spelling) :
    Spelling.bytes? (bytes.map .byte ++ s) = s.bytes?.map (bytes ++ ·) := by
  induction bytes with
  | nil => simp
  | cons b bytes ih =>
    rw [List.map_cons, List.cons_append, Spelling.bytes?, ih, Option.map_map]
    rfl

/-- What the reader makes of a character that was written. -/
structure ReadsAs (c : Char) (pieces : Spelling) : Prop where
  spelling (rest : List UInt8) : spelling? ((escapeChar c).flatMap String.utf8EncodeChar ++ rest) =
    (spelling? rest).map fun r => (pieces ++ r.1, r.2)
  bytes (s : Spelling) : Spelling.bytes? (pieces ++ s) =
    s.bytes?.map (String.utf8EncodeChar c ++ ·)

theorem readsAs_plain {c : Char} (hc : escapeChar c = [c])
    (h : ∀ b ∈ String.utf8EncodeChar c, Plain b) :
    ReadsAs c ((String.utf8EncodeChar c).map .byte) where
  spelling rest := by
    rw [hc, List.flatMap_singleton]
    exact spelling?_plain h rest
  bytes := bytes?_plain _

/-- The pieces of an escape with a letter. -/
theorem readsAs_letter {c e : Char} {b : UInt8} (hc : escapeChar c = ['\\', e])
    (hascii : e.toNat < 0x80) (he : byteOf e ≠ byteOf 'u')
    (hescape : escape? (byteOf e) = some b) (hb : String.utf8EncodeChar c = [b]) :
    ReadsAs c [.byte b] where
  spelling rest := by
    rw [hc]
    show spelling? (byteOf '\\' :: (String.utf8EncodeChar e ++ []) ++ rest) = _
    rw [utf8EncodeChar_ascii hascii, spelling?.eq_def]
    simp [he, hescape, show byteOf '\\' ≠ byteOf '"' from by decide,
      show ¬byteOf '\\' < 0x20 from by decide]
  bytes s := by
    rw [hb]
    exact bytes?_plain [b] s

/-- Controls without a letter of their own are written by their number. -/
theorem unit?_control : ∀ n < 0x20,
    unit? (byteOf '0') (byteOf '0') (byteOf (Nat.digitChar (n / 16)))
      (byteOf (Nat.digitChar (n % 16))) = some n := by
  decide

theorem digitChar_lt : ∀ n < 16, (Nat.digitChar n).toNat < 0x80 := by
  decide

theorem readsAs_control {c : Char} (hc : c.toNat < 0x20)
    (hescape : escapeChar c =
      ['\\', 'u', '0', '0', Nat.digitChar (c.toNat / 16), Nat.digitChar (c.toNat % 16)]) :
    ReadsAs c [.unit c.toNat] where
  spelling rest := by
    rw [hescape]
    have hhigh := utf8EncodeChar_ascii (digitChar_lt (c.toNat / 16) (by omega))
    have hlow := utf8EncodeChar_ascii (digitChar_lt (c.toNat % 16) (by omega))
    show spelling? (byteOf '\\' :: byteOf 'u' :: byteOf '0' :: byteOf '0' ::
      (String.utf8EncodeChar _ ++ (String.utf8EncodeChar _ ++ [])) ++ rest) = _
    rw [hhigh, hlow, spelling?.eq_def]
    simp [unit?_control c.toNat hc, show byteOf '\\' ≠ byteOf '"' from by decide,
      show ¬byteOf '\\' < 0x20 from by decide]
  bytes s := by
    have hplane : ¬(0xD800 ≤ c.toNat ∧ c.toNat < 0xDC00) := by omega
    have hpair : ¬(0xDC00 ≤ c.toNat ∧ c.toNat < 0xE000) := by omega
    rw [List.singleton_append, Spelling.bytes?.eq_def]
    simp only [if_neg hplane, if_neg hpair, Char.ofNat_toNat]

/-- Every written character can be read. -/
theorem exists_readsAs (c : Char) : ∃ pieces, ReadsAs c pieces := by
  by_cases hquote : c = '"'
  · subst hquote
    exact ⟨_, readsAs_letter (e := '"') rfl (by decide) (by decide) rfl rfl⟩
  by_cases hslash : c = '\\'
  · subst hslash
    exact ⟨_, readsAs_letter (e := '\\') rfl (by decide) (by decide) rfl rfl⟩
  by_cases hcontrol : c.toNat < 0x20
  · by_cases hletter : c = Char.ofNat 8 ∨ c = Char.ofNat 12 ∨ c = '\n' ∨ c = '\r' ∨ c = '\t'
    · rcases hletter with rfl | rfl | rfl | rfl | rfl
      · exact ⟨_, readsAs_letter (e := 'b') rfl (by decide) (by decide) rfl rfl⟩
      · exact ⟨_, readsAs_letter (e := 'f') rfl (by decide) (by decide) rfl rfl⟩
      · exact ⟨_, readsAs_letter (e := 'n') rfl (by decide) (by decide) rfl rfl⟩
      · exact ⟨_, readsAs_letter (e := 'r') rfl (by decide) (by decide) rfl rfl⟩
      · exact ⟨_, readsAs_letter (e := 't') rfl (by decide) (by decide) rfl rfl⟩
    · simp only [not_or] at hletter
      exact ⟨_, readsAs_control hcontrol (by simp [escapeChar, hquote, hslash, hletter, hcontrol])⟩
  · have hne {d : Char} (hd : d.toNat < 0x20) : c ≠ d := by
      rintro rfl
      exact hcontrol hd
    have hescape : escapeChar c = [c] := by
      unfold escapeChar
      rw [if_neg hquote, if_neg hslash, if_neg (hne (by decide)), if_neg (hne (by decide)),
        if_neg (hne (by decide)), if_neg (hne (by decide)), if_neg (hne (by decide)),
        if_neg hcontrol]
    refine ⟨_, readsAs_plain hescape fun b hb => ?_⟩
    -- an ASCII byte of a character is the character
    have hascii {d : Char} (hd : d.toNat < 0x80) (hcd : c ≠ d) : b ≠ byteOf d := by
      rintro rfl
      have hbyte : (byteOf d).toNat = d.toNat := by
        rw [byteOf, Nat.toUInt8, UInt8.toNat_ofNat', Nat.mod_eq_of_lt (by omega)]
      rcases toNat_of_mem_utf8EncodeChar hb with h | h
      · exact hcd (Char.toNat_inj.1 (h.symm.trans hbyte))
      · omega
    refine ⟨hascii (by decide) hquote, fun hlow => ?_, hascii (by decide) hslash⟩
    have hlow : b.toNat < 0x20 := hlow
    rcases toNat_of_mem_utf8EncodeChar hb with h | h <;> omega

/-- A written string reads back, whatever comes after it. -/
theorem exists_spelling (cs : List Char) : ∃ p : Spelling,
    p.bytes? = some (cs.flatMap String.utf8EncodeChar) ∧
    ∀ rest, spelling? ((cs.flatMap escapeChar).flatMap String.utf8EncodeChar ++
      byteOf '"' :: rest) = some (p, rest) := by
  induction cs with
  | nil => exact ⟨[], rfl, fun rest => by simp [spelling?.eq_def]⟩
  | cons c cs ih =>
    obtain ⟨p, hbytes, hspelling⟩ := ih
    obtain ⟨pieces, hc⟩ := exists_readsAs c
    refine ⟨pieces ++ p, ?_, fun rest => ?_⟩
    · rw [hc.bytes, hbytes]
      rfl
    · rw [List.flatMap_cons, List.flatMap_append, List.append_assoc, hc.spelling, hspelling]
      rfl

/-- **Strings**: a written string is one token, which spells it. -/
theorem token?_writeText (s : String) : ∃ p : Spelling, p.text? = some s ∧
    ∀ rest, token? (utf8 (writeText s) ++ rest) = some (.text p, rest) := by
  obtain ⟨p, hbytes, hspelling⟩ := exists_spelling s.toList
  refine ⟨p, ?_, fun rest => ?_⟩
  · rw [Spelling.text?, hbytes, ← utf8_eq]
    exact fromUTF8?_utf8 s
  · have htext : utf8 (writeText s) ++ rest = byteOf '"' ::
        ((s.toList.flatMap escapeChar).flatMap String.utf8EncodeChar ++ byteOf '"' :: rest) := by
      have hquote : utf8 "\"" = [byteOf '"'] := by decide
      rw [writeText, utf8_append, utf8_append, hquote, utf8_ofList, List.append_assoc,
        List.append_assoc]
      rfl
    have hmark : mark? (byteOf '"') = none := by decide
    rw [htext, token?, hmark]
    simp only [hspelling, if_true, Option.map_some]

end ScheduleSearch.Json

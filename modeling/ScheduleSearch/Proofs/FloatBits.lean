/-
  Finite floats and their magnitudes.

  A finite float is a sign and a magnitude of at most 53 bits: `Binary.ofFloat` reads the
  magnitude off the bits, and arithmetic on floats unpacks both.

  * `double_ofFloat`: the magnitudes of finite floats are those of 64-bit floats;
  * `unpacked` is the unpacked float of a sign and a magnitude, and **`unpack_pack`** says
    that packing loses nothing of it;
  * **`toFloat_ofFloat`**: a finite float is its sign and its magnitude.
-/
import ScheduleSearch.Decimal.Layout
import ScheduleSearch.Proofs.Shortest

namespace ScheduleSearch

open Float.Model (UnpackedFloat Format)
open Float.Model.UnpackedFloat (Sign unpackExponent unpackSign)

/-! ## Signs and magnitudes -/

/-- The sign of a float. -/
def signOf (negative : Bool) : Sign := if negative then .negative else .positive

/-- The unpacked float of a sign and a magnitude. -/
def unpacked (negative : Bool) (x : Binary) : UnpackedFloat :=
  if h : x.mantissa = 0 then .zero (signOf negative)
  else .finite (signOf negative) x.mantissa x.exponent (Nat.pos_of_ne_zero h)

/-- Bits of a float that is no NaN and not infinite. -/
def FiniteBits (b : UInt64) : Prop := b.toNat / 2 ^ 52 % 2 ^ 11 ≠ 2047

theorem toNat_unpackExponent (b : BitVec Format.binary64.numBits) :
    (unpackExponent b).toNat = b.toNat / 2 ^ 52 % 2 ^ 11 := by
  simp [unpackExponent, Nat.shiftRight_eq_div_pow]

theorem double_ofBits {b : UInt64} (hb : FiniteBits b) : (Binary.ofBits b).Double := by
  unfold FiniteBits at hb
  unfold Binary.ofBits
  dsimp only
  split
  · constructor <;> dsimp only
    · omega
    · decide
    · decide
    · exact fun h => absurd h (lt_irrefl _)
    · simp
  · constructor <;> dsimp only
    · omega
    · omega
    · omega
    · omega
    · simp only [Bool.and_eq_true, beq_iff_eq, decide_eq_true_eq]
      omega

theorem toNat_one_append (m : BitVec 52) : (1#1 ++ m).toNat = 0x10000000000000 + m.toNat := by
  rw [BitVec.toNat_append, ← Nat.shiftLeft_add_eq_or_of_lt m.isLt]
  rfl

theorem finite_congr {s : Sign} {m m' : ℕ} {e e' : ℤ} {h : 0 < m} {h' : 0 < m'} (hm : m = m')
    (he : e = e') : UnpackedFloat.finite s m e h = .finite s m' e' h' := by
  subst hm he
  rfl

/-! ## Packing -/

open Float.Model.UnpackedFloat (packComponents unpackMantissa_packComponents
  unpackExponent_packComponents)

theorem unpackSign_packComponents (f : Format) (sign : Sign) (e : BitVec f.exponentBits)
    (m : BitVec f.mantissaBitsWithoutImplicit) :
    Sign.ofBitVec (unpackSign (packComponents f sign e m)) = sign := by
  have hsign : unpackSign (packComponents f sign e m) = sign.toBitVec := by
    apply BitVec.eq_of_getLsbD_eq
    intro i hi
    obtain rfl : i = 0 := by omega
    simp [unpackSign, packComponents, BitVec.getLsbD_append, BitVec.getElem_append]
  rw [hsign]
  cases sign <;> rfl

theorem log2_add_one_eq {m : ℕ} (hm : m < 2 ^ 53) : m.log2 + 1 = 53 ↔ 2 ^ 52 ≤ m := by
  constructor
  · intro h
    by_contra hlt
    rcases Nat.eq_zero_or_pos m with rfl | hpos
    · cases h
    · have := (Nat.log2_lt (Nat.ne_of_gt hpos)).2 (not_le.1 hlt)
      omega
  · intro h
    have hne : m ≠ 0 := by omega
    have h1 := (Nat.log2_lt hne).2 hm
    have h2 := (Nat.le_log2 hne).2 h
    omega

/-- The bits of a magnitude: only a full mantissa has an exponent field. -/
theorem pack_finite (sign : Sign) {m k : ℕ} {e : ℤ} (hm : 0 < m) (he : e = (k : ℤ) - 1074)
    (hk : k < 2046) :
    UnpackedFloat.pack Format.binary64 (.finite sign m e hm) =
      if m.log2 + 1 = 53 then
        packComponents Format.binary64 sign (BitVec.ofNat 11 (k + 1)) (BitVec.ofNat 52 m)
      else packComponents Format.binary64 sign 0#11 (BitVec.ofNat 52 m) := by
  have hbiased : (e + Format.binary64.exponentBias +
      Format.binary64.mantissaBitsWithoutImplicit).toNat = k + 1 := by
    show (e + (1023 : ℕ) + (52 : ℕ)).toNat = k + 1
    omega
  unfold UnpackedFloat.pack
  dsimp only
  rw [hbiased, if_neg (by show ¬2 ^ 11 ≤ k + 1 + 1; omega)]
  rfl

theorem unpack_packComponents (f : Format) (sign : Sign) (e : BitVec f.exponentBits)
    (m : BitVec f.mantissaBitsWithoutImplicit) :
    UnpackedFloat.unpack f (packComponents f sign e m) =
      if e = -1#_ then if m = 0#_ then .infinity sign else .notANumber
      else if e = 0#_ then
        if h : m = 0#_ then .zero sign
        else .finite sign m.toNat
          ((e.toNat : ℤ) - (f.exponentBias + f.mantissaBitsWithoutImplicit) + 1)
          (by simpa [BitVec.toNat_pos, BitVec.pos_iff_ne_zero])
      else .finite sign (1#1 ++ m).toNat
        ((e.toNat : ℤ) - (f.exponentBias + f.mantissaBitsWithoutImplicit)) (by simp) := by
  unfold UnpackedFloat.unpack
  simp only [unpackMantissa_packComponents, unpackExponent_packComponents,
    unpackSign_packComponents]

/-- **Packing** a magnitude loses nothing of it. -/
theorem unpack_pack {x : Binary} (hx : x.Double) (negative : Bool) :
    UnpackedFloat.unpack Format.binary64
      (UnpackedFloat.pack Format.binary64 (unpacked negative x)) = unpacked negative x := by
  unfold unpacked
  by_cases hm : x.mantissa = 0
  · rw [dif_pos hm]
    cases negative <;> rfl
  rw [dif_neg hm]
  have hlow := hx.exponent_ge
  have hhigh := hx.exponent_le
  have hlt := hx.mantissa_lt
  obtain ⟨k, hk⟩ : ∃ k : ℕ, x.exponent = (k : ℤ) - 1074 := ⟨(x.exponent + 1074).toNat, by omega⟩
  rw [pack_finite _ _ hk (by omega)]
  by_cases hnormal : 2 ^ 52 ≤ x.mantissa
  · have hfield : (BitVec.ofNat 11 (k + 1)).toNat = k + 1 := by
      rw [BitVec.toNat_ofNat]
      omega
    have hfinite : BitVec.ofNat 11 (k + 1) ≠ -1#11 := by
      rw [Ne, ← BitVec.toNat_inj, hfield]
      show k + 1 ≠ 2047
      omega
    have hzero : BitVec.ofNat 11 (k + 1) ≠ 0#11 := by
      rw [Ne, ← BitVec.toNat_inj, hfield]
      show k + 1 ≠ 0
      omega
    rw [if_pos ((log2_add_one_eq hlt).2 hnormal)]
    refine (unpack_packComponents Format.binary64 _ _ _).trans ?_
    rw [if_neg hfinite, if_neg hzero]
    refine finite_congr ?_ ?_
    · rw [toNat_one_append, BitVec.toNat_ofNat]
      omega
    · rw [hfield]
      show ((k + 1 : ℕ) : ℤ) - 1075 = _
      omega
  · have hvec : (BitVec.ofNat 52 x.mantissa).toNat = x.mantissa := by
      rw [BitVec.toNat_ofNat]
      omega
    have hne : BitVec.ofNat 52 x.mantissa ≠ 0#52 := by
      rw [Ne, ← BitVec.toNat_inj, hvec]
      exact hm
    rw [if_neg (mt (log2_add_one_eq hlt).1 hnormal)]
    refine (unpack_packComponents Format.binary64 _ _ _).trans ?_
    rw [if_neg (by decide), if_pos rfl, dif_neg hne]
    refine finite_congr hvec ?_
    show (0 : ℤ) - 1075 + 1 = _
    have := hx.le_mantissa
    omega

/-- The three fields determine the bits. -/
theorem eq_packComponents (b : BitVec 64) {sign : Sign} {e : BitVec 11} {m : BitVec 52}
    (hs : sign = signOf (decide (0x8000000000000000 ≤ b.toNat)))
    (he : e.toNat = b.toNat / 2 ^ 52 % 2 ^ 11) (hm : m.toNat = b.toNat % 2 ^ 52) :
    packComponents Format.binary64 sign e m = b := by
  have hlt := b.isLt
  have hvec : sign.toBitVec.toNat = b.toNat / 2 ^ 63 := by
    rw [hs]
    by_cases hneg : 0x8000000000000000 ≤ b.toNat
    · rw [decide_eq_true hneg]
      show 1 = _
      omega
    · rw [decide_eq_false hneg]
      show 0 = _
      omega
  have happend : (packComponents Format.binary64 sign e m).toNat =
      (sign.toBitVec.toNat * 2 ^ 11 + e.toNat) * 2 ^ 52 + m.toNat := by
    unfold packComponents
    rw [BitVec.toNat_append, ← Nat.shiftLeft_add_eq_or_of_lt m.isLt, BitVec.toNat_append,
      ← Nat.shiftLeft_add_eq_or_of_lt e.isLt, Nat.shiftLeft_eq, Nat.shiftLeft_eq]
  apply BitVec.eq_of_toNat_eq
  rw [happend, hvec, he, hm]
  omega

/-- **Unpacking** loses nothing of finite bits. -/
theorem pack_ofBits {b : UInt64} (hb : FiniteBits b) :
    UnpackedFloat.pack Format.binary64
      (unpacked (decide (0x8000000000000000 ≤ b.toNat)) (Binary.ofBits b)) = b.toBitVec := by
  unfold FiniteBits at hb
  unfold unpacked Binary.ofBits
  dsimp only
  by_cases hfield : b.toNat / 0x10000000000000 % 0x800 = 0
  · simp only [if_pos hfield]
    by_cases hm : b.toNat % 0x10000000000000 = 0
    · rw [dif_pos hm]
      exact eq_packComponents b.toBitVec rfl hfield.symm hm.symm
    · have hbits : ¬(b.toNat % 0x10000000000000).log2 + 1 = 53 := by
        rw [log2_add_one_eq (by omega)]
        omega
      rw [dif_neg hm, pack_finite _ (k := 0) _ (by omega) (by omega), if_neg hbits]
      refine eq_packComponents b.toBitVec rfl hfield.symm ?_
      rw [BitVec.toNat_ofNat, UInt64.toNat_toBitVec]
      omega
  · simp only [if_neg hfield]
    have hbits : (0x10000000000000 + b.toNat % 0x10000000000000).log2 + 1 = 53 := by
      rw [log2_add_one_eq (by omega)]
      omega
    rw [dif_neg (by omega), pack_finite _ (k := b.toNat / 0x10000000000000 % 0x800 - 1) _
      (by omega) (by omega), if_pos hbits]
    refine eq_packComponents b.toBitVec rfl ?_ ?_
    · rw [BitVec.toNat_ofNat, UInt64.toNat_toBitVec]
      omega
    · rw [BitVec.toNat_ofNat, UInt64.toNat_toBitVec]
      omega

/-! ## Floats -/

/-- The float of a sign and a magnitude. -/
def Binary.toFloat (negative : Bool) (x : Binary) : Float := .ofModel (.pack (unpacked negative x))

theorem Binary.Double.unpack_toFloat {x : Binary} (hx : x.Double) (negative : Bool) :
    (x.toFloat negative).toModel.unpack = unpacked negative x :=
  unpack_pack hx negative

variable {x : Float}

theorem finiteBits (hx : x.isFinite) : FiniteBits x.toBits := by
  intro hexponent
  have hvec : @unpackExponent Format.binary64 x.toBits.toBitVec = -1#_ := by
    rw [← BitVec.toNat_inj, toNat_unpackExponent]
    exact hexponent
  have hunpack : x.toModel.unpack.isFinite = false := by
    show (UnpackedFloat.unpack Format.binary64 x.toBits.toBitVec).isFinite = false
    unfold UnpackedFloat.unpack
    dsimp only
    rw [if_pos hvec]
    split <;> rfl
  exact Bool.false_ne_true (hunpack.symm.trans hx)

theorem double_ofFloat (hx : x.isFinite) : (Binary.ofFloat x).Double :=
  double_ofBits (finiteBits hx)

/-- A finite float is its sign and its magnitude. -/
theorem toFloat_ofFloat (hx : x.isFinite) : (Binary.ofFloat x).toFloat (signBit x) = x := by
  have hbits : (Float.Model.pack (unpacked (signBit x) (Binary.ofFloat x))).toBits =
      x.toModel.toBits := by
    apply UInt64.toBitVec_inj.1
    exact pack_ofBits (finiteBits hx)
  obtain ⟨⟨bits, valid⟩⟩ := x
  exact congrArg Float.ofModel (Float.Model.mk.injEq .. ▸ hbits)

end ScheduleSearch

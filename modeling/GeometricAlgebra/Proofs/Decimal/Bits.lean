import Mathlib
import GeometricAlgebra.Decimal.Read

set_option autoImplicit false

/-! # The bits of floating-point numbers

A floating-point number is given by its bits: a sign, an exponent field of 11 bits and a fraction of
52. Its arithmetic unpacks the fields and packs them again, and a finite number is packed into the
fields that it was unpacked from, with whatever sign (`unpack_cases`). So the bits determine the
number (`ofBits_toBits`), and what is said of numbers can be read off their fields: which are finite
(`isFinite_iff`), which have the size zero (`abs_le_zero_iff`), and that a number but zero is told
by its size and whether it is below zero (`eq_of_abs_eq`). -/

namespace GeometricAlgebra

namespace Binary

open Float.Model Float.Model.UnpackedFloat

/-! ## Fields -/

section Fields

variable (b : BitVec Format.binary64.numBits)

theorem toNat_unpackMantissa : (unpackMantissa b).toNat = b.toNat % 2 ^ 52 := by
  simp [unpackMantissa]

theorem toNat_unpackExponent : (unpackExponent b).toNat = b.toNat / 2 ^ 52 % 2 ^ 11 := by
  simp [unpackExponent, Nat.shiftRight_eq_div_pow]

theorem toNat_unpackSign : (unpackSign b).toNat = b.toNat / 2 ^ 63 := by
  have hlt : b.toNat < 2 ^ 64 := b.isLt
  have hfield : (unpackSign b).toNat = b.toNat / 2 ^ 63 % 2 := by
    simp [unpackSign, Nat.shiftRight_eq_div_pow]
  omega

theorem toBitVec_ofBitVec (v : BitVec 1) : (Sign.ofBitVec v).toBitVec = v := by
  revert v
  decide

theorem packComponents_unpack :
    packComponents Format.binary64 (Sign.ofBitVec (unpackSign b)) (unpackExponent b)
      (unpackMantissa b) = b := by
  simp only [packComponents, toBitVec_ofBitVec, unpackSign, unpackExponent, unpackMantissa,
    BitVec.extractLsb]
  ext i hi
  grind

theorem unpackSign_packComponents (s : Sign) (E : BitVec 11) (M : BitVec 52) :
    unpackSign (packComponents Format.binary64 s E M) = s.toBitVec := by
  simp only [unpackSign, packComponents, BitVec.extractLsb]
  ext i hi
  grind

theorem toNat_one_append (M : BitVec 52) : (1#1 ++ M).toNat = 2 ^ 52 + M.toNat := by
  rw [BitVec.toNat_append, ← Nat.shiftLeft_add_eq_or_of_lt M.isLt]
  rfl

/-- A mantissa with fewer than 53 bits goes with the exponent field zero. -/
theorem pack_subnormal (s : Sign) {M : BitVec 52} (hM : 0 < M.toNat) :
    UnpackedFloat.pack Format.binary64 (.finite s M.toNat (0 - (1023 + 52) + 1) hM)
      = packComponents Format.binary64 s 0#11 M := by
  have hlog : M.toNat.log2 < 52 := (Nat.log2_lt hM.ne').mpr M.isLt
  have hbits : ¬ M.toNat.log2 + 1 = Format.binary64.mantissaBits := by
    have : Format.binary64.mantissaBits = 53 := rfl
    omega
  rw [UnpackedFloat.pack, if_neg (by decide), if_neg hbits, BitVec.ofNat_toNat, BitVec.setWidth_eq]

/-- A full mantissa goes with the exponent field that says so. -/
theorem pack_normal (s : Sign) {E : BitVec 11} (hE : E ≠ -1#11) (M : BitVec 52)
    (hm : 0 < (1#1 ++ M).toNat) :
    UnpackedFloat.pack Format.binary64 (.finite s (1#1 ++ M).toNat (E.toNat - (1023 + 52)) hm)
      = packComponents Format.binary64 s E M := by
  have hlt := M.isLt
  have hfull := toNat_one_append M
  have hlog : (1#1 ++ M).toNat.log2 = 52 := by
    rw [Nat.log2_eq_iff hm.ne', hfull]
    omega
  have hbits : (1#1 ++ M).toNat.log2 + 1 = Format.binary64.mantissaBits := by
    rw [hlog]
    rfl
  have hfield : E.toNat ≠ 2047 := fun h => hE (BitVec.eq_of_toNat_eq h)
  have hlast : ¬ 2 ^ Format.binary64.exponentBits ≤ E.toNat + 1 := by
    have hpow : 2 ^ Format.binary64.exponentBits = 2048 := rfl
    have := E.isLt
    omega
  have hbiased : ((E.toNat : Int) - (1023 + 52) + Format.binary64.exponentBias
      + Format.binary64.mantissaBitsWithoutImplicit).toNat = E.toNat := by
    have hbias : (Format.binary64.exponentBias : Int) = 1023 := rfl
    have hwidth : (Format.binary64.mantissaBitsWithoutImplicit : Int) = 52 := rfl
    omega
  have hfraction : BitVec.ofNat 52 (1#1 ++ M).toNat = M := by
    refine BitVec.eq_of_toNat_eq ?_
    rw [BitVec.toNat_ofNat, hfull]
    omega
  simp only [UnpackedFloat.pack, hbiased]
  rw [if_neg hlast, if_pos hbits, hfraction, BitVec.ofNat_toNat, BitVec.setWidth_eq]

/-- **What unpacking gives**, by the exponent field and the fraction. -/
theorem unpack_cases :
    (unpackExponent b = -1#11 ∧ unpackMantissa b = 0#52 ∧
      unpack Format.binary64 b = .infinity (Sign.ofBitVec (unpackSign b))) ∨
    (unpackExponent b = -1#11 ∧ unpackMantissa b ≠ 0#52 ∧
      unpack Format.binary64 b = .notANumber) ∨
    (unpackExponent b = 0#11 ∧ unpackMantissa b = 0#52 ∧
      unpack Format.binary64 b = .zero (Sign.ofBitVec (unpackSign b))) ∨
    (unpackExponent b ≠ -1#11 ∧ ¬ (unpackExponent b = 0#11 ∧ unpackMantissa b = 0#52) ∧
      ∃ m e hm, unpack Format.binary64 b = .finite (Sign.ofBitVec (unpackSign b)) m e hm ∧
        ∀ s, pack Format.binary64 (.finite s m e hm)
          = packComponents Format.binary64 s (unpackExponent b) (unpackMantissa b)) := by
  rw [UnpackedFloat.unpack]
  by_cases hspecial : unpackExponent b = -1#11
  · rw [if_pos hspecial]
    by_cases hfraction : unpackMantissa b = 0#52
    · exact Or.inl ⟨hspecial, hfraction, if_pos hfraction⟩
    · exact Or.inr (Or.inl ⟨hspecial, hfraction, if_neg hfraction⟩)
  rw [if_neg hspecial]
  by_cases hsmall : unpackExponent b = 0#11
  · rw [if_pos hsmall]
    by_cases hfraction : unpackMantissa b = 0#52
    · exact Or.inr (Or.inr (Or.inl ⟨hsmall, hfraction, dif_pos hfraction⟩))
    · refine Or.inr (Or.inr (Or.inr
        ⟨hspecial, fun h => hfraction h.2, _, _, _, dif_neg hfraction, ?_⟩))
      intro s
      rw [hsmall]
      exact pack_subnormal s _
  · rw [if_neg hsmall]
    refine Or.inr (Or.inr (Or.inr ⟨hspecial, fun h => hsmall h.1, _, _, _, rfl, fun s => ?_⟩))
    exact pack_normal s hspecial _ _

theorem pack_unpack (hb : Format.binary64.Valid b) :
    UnpackedFloat.pack Format.binary64 (UnpackedFloat.unpack Format.binary64 b) = b := by
  have hself := packComponents_unpack b
  rcases unpack_cases b with ⟨hE, hM, h⟩ | ⟨hE, hM, h⟩ | ⟨hE, hM, h⟩ | ⟨-, -, m, e, hm, h, hpack⟩
  · rw [h]
    rwa [hE, hM] at hself
  · -- of all that is not a number only one pattern is valid
    rw [h, hb.eq_packedNaN hE hM]
    rfl
  · rw [h]
    rwa [hE, hM] at hself
  · rw [h, hpack, hself]

/-- A number that is packed with the positive sign is at most zero iff its fields are. -/
theorem abs_le_zero :
    (UnpackedFloat.unpack Format.binary64 (UnpackedFloat.pack Format.binary64
      (UnpackedFloat.unpack Format.binary64 b).abs)).le (.zero .positive) = true
        ↔ unpackExponent b = 0#11 ∧ unpackMantissa b = 0#52 := by
  rcases unpack_cases b with
    ⟨hE, hM, h⟩ | ⟨hE, hM, h⟩ | ⟨hE, hM, h⟩ | ⟨hE, hzero, m, e, hm, h, hpack⟩
  · rw [h, UnpackedFloat.abs, hE]
    exact iff_of_false (by decide) fun h => absurd h.1 (by decide)
  · rw [h, UnpackedFloat.abs, hE]
    exact iff_of_false (by decide) fun h => absurd h.1 (by decide)
  · rw [h, UnpackedFloat.abs]
    exact iff_of_true (by decide) ⟨hE, hM⟩
  · rw [h, UnpackedFloat.abs, hpack]
    refine iff_of_false ?_ hzero
    have hcases := unpack_cases (packComponents Format.binary64 .positive (unpackExponent b)
      (unpackMantissa b))
    rw [unpackExponent_packComponents, unpackMantissa_packComponents, unpackSign_packComponents]
      at hcases
    rcases hcases with ⟨hE', -⟩ | ⟨hE', -⟩ | ⟨hE', hM', -⟩ | ⟨-, -, m', e', hm', h', -⟩
    · exact absurd hE' hE
    · exact absurd hE' hE
    · exact absurd ⟨hE', hM'⟩ hzero
    · rw [h']
      exact Bool.false_ne_true

/-- The size of a number without a sign bit is the number. -/
theorem abs_unpack (hs : unpackSign b = 0#1) :
    (UnpackedFloat.unpack Format.binary64 b).abs = UnpackedFloat.unpack Format.binary64 b := by
  rcases unpack_cases b with ⟨-, -, h⟩ | ⟨-, -, h⟩ | ⟨-, -, h⟩ | ⟨-, -, m, e, hm, h, -⟩ <;>
    rw [h] <;> first | rfl | (rw [hs]; rfl)

/-- A number is equal to zero iff its fields are zero. -/
theorem beq_zero :
    (UnpackedFloat.unpack Format.binary64 b).beq (.zero .positive) = true
      ↔ unpackExponent b = 0#11 ∧ unpackMantissa b = 0#52 := by
  rcases unpack_cases b with ⟨hE, hM, h⟩ | ⟨hE, hM, h⟩ | ⟨hE, hM, h⟩ | ⟨hE, hzero, m, e, hm, h, -⟩
  · rw [h, hE]
    refine iff_of_false ?_ fun h => absurd h.1 (by decide)
    cases Sign.ofBitVec (unpackSign b) <;> decide
  · rw [h, hE]
    exact iff_of_false (by decide) fun h => absurd h.1 (by decide)
  · rw [h]
    refine iff_of_true ?_ ⟨hE, hM⟩
    cases Sign.ofBitVec (unpackSign b) <;> decide
  · rw [h]
    refine iff_of_false ?_ hzero
    cases Sign.ofBitVec (unpackSign b) <;> exact Bool.false_ne_true

/-- The size of a number that is finite has its exponent field and its fraction. -/
theorem pack_abs (hE : unpackExponent b ≠ -1#11) :
    UnpackedFloat.pack Format.binary64 (UnpackedFloat.unpack Format.binary64 b).abs
      = packComponents Format.binary64 .positive (unpackExponent b) (unpackMantissa b) := by
  rcases unpack_cases b with ⟨h, -⟩ | ⟨h, -⟩ | ⟨hzeroE, hzeroM, h⟩ | ⟨-, -, m, e, hm, h, hpack⟩
  · exact absurd h hE
  · exact absurd h hE
  · rw [h, UnpackedFloat.abs, hzeroE, hzeroM]
    rfl
  · rw [h, UnpackedFloat.abs, hpack]

/-- A number is below zero if its sign says so, but for what is zero. -/
theorem lt_zero (hE : unpackExponent b ≠ -1#11)
    (hne : ¬ (unpackExponent b = 0#11 ∧ unpackMantissa b = 0#52)) :
    (UnpackedFloat.unpack Format.binary64 b).lt (.zero .positive) = true
      ↔ unpackSign b = 1#1 := by
  rcases unpack_cases b with ⟨h, -⟩ | ⟨h, -⟩ | ⟨hzeroE, hzeroM, h⟩ | ⟨-, -, m, e, hm, h, -⟩
  · exact absurd h hE
  · exact absurd h hE
  · exact absurd ⟨hzeroE, hzeroM⟩ hne
  · have hs : unpackSign b = 0#1 ∨ unpackSign b = 1#1 := by
      generalize unpackSign b = s
      revert s
      decide
    rw [h]
    rcases hs with hs | hs <;> rw [hs]
    · exact iff_of_false Bool.false_ne_true (by decide)
    · exact iff_of_true rfl rfl

end Fields

/-! ## Numbers -/

/-- **The bits determine the number.** -/
theorem ofBits_toBits (x : Float) : Float.ofBits x.toBits = x := by
  obtain ⟨⟨bits, hbits⟩⟩ := x
  have hpack : UInt64.ofBitVec (UnpackedFloat.pack Format.binary64
      (UnpackedFloat.unpack Format.binary64 bits.toBitVec)) = bits := by
    rw [pack_unpack _ hbits]
  simp only [Float.ofBits, Float.toBits, Float.Model.ofBits, Float.Model.pack, hpack]

/-- The numbers whose exponent field is not the last one are finite. -/
theorem isFinite_iff (x : Float) :
    x.isFinite = true ↔ x.toBits.toNat / 2 ^ 52 % 2 ^ 11 ≠ 2047 := by
  have hfield := toNat_unpackExponent x.toBits.toBitVec
  have hlast : @unpackExponent Format.binary64 x.toBits.toBitVec = -1#11
      ↔ x.toBits.toNat / 2 ^ 52 % 2 ^ 11 = 2047 := by
    rw [← BitVec.toNat_inj, hfield]
    rfl
  have hfinite : x.isFinite
      = (UnpackedFloat.unpack Format.binary64 x.toBits.toBitVec).isFinite := rfl
  rw [Ne, ← hlast, hfinite]
  rcases unpack_cases x.toBits.toBitVec with
    ⟨hE, -, h⟩ | ⟨hE, -, h⟩ | ⟨hE, -, h⟩ | ⟨hE, -, m, e, hm, h, -⟩
  · rw [h]
    exact iff_of_false Bool.false_ne_true (not_not.mpr hE)
  · rw [h]
    exact iff_of_false Bool.false_ne_true (not_not.mpr hE)
  · rw [h, hE]
    exact iff_of_true rfl (by decide)
  · rw [h]
    exact iff_of_true rfl hE

/-- The fields of the two zeros. -/
theorem fields_eq_zero_iff (w : UInt64) :
    @unpackExponent Format.binary64 w.toBitVec = 0#11 ∧
        @unpackMantissa Format.binary64 w.toBitVec = 0#52 ↔
      w = 0 ∨ w = 0x8000000000000000 := by
  rw [← BitVec.toNat_inj, ← BitVec.toNat_inj, ← UInt64.toNat_inj, ← UInt64.toNat_inj,
    toNat_unpackExponent, toNat_unpackMantissa]
  have hlt := w.toNat_lt
  have hbits : w.toBitVec.toNat = w.toNat := rfl
  have hplus : (0 : UInt64).toNat = 0 := rfl
  have hminus : (0x8000000000000000 : UInt64).toNat = 2 ^ 63 := rfl
  have hfield : (0#11).toNat = 0 := rfl
  have hfraction : (0#52).toNat = 0 := rfl
  omega

/-- **Only the two zeros are equal to zero.** -/
theorem beq_zero_iff (x : Float) :
    (x == 0) = true ↔ x.toBits = 0 ∨ x.toBits = 0x8000000000000000 := by
  have hbeq : (x == 0) = (UnpackedFloat.unpack Format.binary64 x.toBits.toBitVec).beq
      (.zero .positive) := rfl
  rw [hbeq, beq_zero, fields_eq_zero_iff]

/-- **Only the two zeros are of the size zero.** -/
theorem abs_le_zero_iff (x : Float) :
    x.abs ≤ Float.ofInt 0 ↔ x.toBits = 0 ∨ x.toBits = 0x8000000000000000 := by
  have hzero : UnpackedFloat.unpack Format.binary64 (Float.ofInt 0).toBits.toBitVec
      = .zero .positive := rfl
  have hle : x.abs ≤ Float.ofInt 0 ↔ (UnpackedFloat.unpack Format.binary64
      (UnpackedFloat.pack Format.binary64 (UnpackedFloat.unpack Format.binary64
        x.toBits.toBitVec).abs)).le (.zero .positive) = true := by
    rw [← hzero]
    exact decide_eq_true_iff
  rw [hle, abs_le_zero, fields_eq_zero_iff]

/-- The same of all patterns of bits, also those of what is not a number. -/
theorem ofBits_le_zero_iff (w : UInt64) :
    Float.ofBits (w &&& 0x7fffffffffffffff) ≤ Float.ofInt 0 ↔ w = 0 ∨ w = 0x8000000000000000 := by
  set v := w &&& 0x7fffffffffffffff with hv
  have hsize : v.toNat = w.toNat % 2 ^ 63 := by
    rw [hv, UInt64.toNat_and]
    exact Nat.and_two_pow_sub_one_eq_mod _ 63
  have hbits : v.toBitVec.toNat = v.toNat := rfl
  have hsign : @unpackSign Format.binary64 v.toBitVec = 0#1 := by
    rw [← BitVec.toNat_inj, toNat_unpackSign]
    have hplus : (0#1).toNat = 0 := rfl
    omega
  have hle : Float.ofBits v ≤ Float.ofInt 0 ↔ (UnpackedFloat.unpack Format.binary64
      (UnpackedFloat.pack Format.binary64 (UnpackedFloat.unpack Format.binary64
        v.toBitVec).abs)).le (.zero .positive) = true := by
    rw [abs_unpack _ hsign]
    exact decide_eq_true_iff
  rw [hle, abs_le_zero, fields_eq_zero_iff, ← UInt64.toNat_inj, ← UInt64.toNat_inj,
    ← UInt64.toNat_inj, ← UInt64.toNat_inj, hsize]
  have hlt := w.toNat_lt
  have hplus : (0 : UInt64).toNat = 0 := rfl
  have hminus : (0x8000000000000000 : UInt64).toNat = 2 ^ 63 := rfl
  omega

/-! ## Signs and sizes -/

theorem unpackExponent_ne_of_isFinite {x : Float} (hx : x.isFinite = true) :
    @unpackExponent Format.binary64 x.toBits.toBitVec ≠ -1#11 := by
  intro hE
  have hfield := toNat_unpackExponent x.toBits.toBitVec
  rw [hE] at hfield
  exact (isFinite_iff x).mp hx hfield.symm

/-- The size of a finite number has its exponent field and its fraction. -/
theorem toBits_abs {x : Float} (hx : x.isFinite = true) :
    x.abs.toBits.toBitVec = packComponents Format.binary64 .positive
      (unpackExponent x.toBits.toBitVec) (unpackMantissa x.toBits.toBitVec) :=
  pack_abs x.toBits.toBitVec (unpackExponent_ne_of_isFinite hx)

/-- So it is the number without its sign bit. -/
theorem toNat_toBits_abs {x : Float} (hx : x.isFinite = true) :
    x.abs.toBits.toNat = x.toBits.toNat % 2 ^ 63 := by
  have hpack := toBits_abs hx
  have hsign := toNat_unpackSign x.abs.toBits.toBitVec
  have hexponent := toNat_unpackExponent x.abs.toBits.toBitVec
  have hfraction := toNat_unpackMantissa x.abs.toBits.toBitVec
  rw [hpack, unpackSign_packComponents, ← hpack] at hsign
  rw [hpack, unpackExponent_packComponents, ← hpack, toNat_unpackExponent] at hexponent
  rw [hpack, unpackMantissa_packComponents, ← hpack, toNat_unpackMantissa] at hfraction
  have hpositive : (Sign.positive.toBitVec).toNat = 0 := rfl
  have hbits : x.toBits.toBitVec.toNat = x.toBits.toNat := rfl
  have habs : x.abs.toBits.toBitVec.toNat = x.abs.toBits.toNat := rfl
  omega

theorem isFinite_abs {x : Float} (hx : x.isFinite = true) : x.abs.isFinite = true := by
  have habs := toNat_toBits_abs hx
  rw [isFinite_iff] at hx ⊢
  omega

theorem abs_beq_zero {x : Float} (hx : x.isFinite = true) : (x.abs == 0) = (x == 0) := by
  have hbeq : ∀ y : Float, (y == 0) = (UnpackedFloat.unpack Format.binary64 y.toBits.toBitVec).beq
      (.zero .positive) := fun _ => rfl
  rw [hbeq, hbeq, Bool.eq_iff_iff, beq_zero, beq_zero, toBits_abs hx,
    unpackExponent_packComponents, unpackMantissa_packComponents]

/-- A finite number but zero is below zero iff its sign bit is set. -/
theorem lt_zero_iff {x : Float} (hx : x.isFinite = true) (hne : (x == 0) = false) :
    x < 0 ↔ 2 ^ 63 ≤ x.toBits.toNat := by
  have hlt : x < 0 ↔ (UnpackedFloat.unpack Format.binary64 x.toBits.toBitVec).lt
      (.zero .positive) = true := decide_eq_true_iff
  have hE := unpackExponent_ne_of_isFinite hx
  have hfields : ¬ (@unpackExponent Format.binary64 x.toBits.toBitVec = 0#11 ∧
      @unpackMantissa Format.binary64 x.toBits.toBitVec = 0#52) := by
    rw [fields_eq_zero_iff, ← beq_zero_iff, hne]
    exact Bool.false_ne_true
  rw [hlt, lt_zero _ hE hfields, ← BitVec.toNat_inj, toNat_unpackSign]
  have hbits : x.toBits.toBitVec.toNat = x.toBits.toNat := rfl
  have hone : (1#1).toNat = 1 := rfl
  have := x.toBits.toNat_lt
  omega

/-- **A finite number but zero is its size and whether it is below zero.** -/
theorem eq_of_abs_eq {x y : Float} (hx : x.isFinite = true) (hx0 : (x == 0) = false)
    (hy : y.isFinite = true) (hy0 : (y == 0) = false) (habs : x.abs = y.abs)
    (hlt : x < 0 ↔ y < 0) : x = y := by
  rw [lt_zero_iff hx hx0, lt_zero_iff hy hy0] at hlt
  have hsize := toNat_toBits_abs hx
  rw [habs, toNat_toBits_abs hy] at hsize
  have hxlt := x.toBits.toNat_lt
  have hylt := y.toBits.toNat_lt
  have hbits : x.toBits.toNat = y.toBits.toNat := by omega
  rw [← ofBits_toBits x, ← ofBits_toBits y, UInt64.toNat_inj.mp hbits]

end Binary

end GeometricAlgebra

import GeometricAlgebra.Number
import GeometricAlgebra.Proofs.Decimal.Bits
import GeometricAlgebra.Proofs.Decimal.Characters
import GeometricAlgebra.Proofs.Decimal.Literal

set_option autoImplicit false

/-! # Numbers are read back from what is written

A finite floating-point number is its sign, a mantissa and an exponent (`ofFloat_of_isFinite`). The
decimal that is written for it lies in its interval, so it is rounded back to the mantissa and the
exponent (`toBits_of_contains`), and the sign is written in front. This holds of both formats
(`json_spec`, `plain_spec`); texts for people are plain decimals, but for zeros. -/

namespace GeometricAlgebra

open Binary

namespace Decimal

/-! ## From decimals to bits -/

/-- The first digit of a decimal tells its size. -/
theorem leadingExponent_spec {d : Decimal} (hd : 0 < d.digits) :
    (10 : ℚ) ^ d.leadingExponent ≤ d.value ∧ d.value < 10 ^ (d.leadingExponent + 1) := by
  have hpos := ten_zpow_pos d.exponent
  constructor
  · rw [leadingExponent, zpow_add₀ (by norm_num), value]
    exact mul_le_mul_of_nonneg_right (ten_zpow_le_cast hd) hpos.le
  · have hexp : d.leadingExponent + 1 = (d.chars.length - 1 + 1 : Int) + d.exponent := by
      rw [leadingExponent]
      omega
    rw [hexp, zpow_add₀ (by norm_num), value]
    exact mul_lt_mul_of_pos_right (cast_lt_ten_zpow d.digits) hpos

/-- What lies in the interval of a number is neither too large nor too small to be read. -/
theorem Interval.bounds_of_contains {m : Nat} {e : Int} {v : ℚ} (hfinite : IsFinite m e)
    (h : (around m e).Contains (e - 2) v) : 2 ^ (-1075 : Int) ≤ v ∧ v < 2 ^ (1024 : Int) := by
  obtain ⟨w, rfl⟩ := exists_units v e
  obtain ⟨hlow, hhigh, -⟩ := of_contains_around hfinite.pos h
  have hone : (1 : ℚ) ≤ m := by exact_mod_cast hfinite.pos
  have hm := hfinite.cast_add_one_le
  have hreach := reachBelow_le m e
  have hhalf : (2 : ℚ) ^ (-1 : Int) ≤ w := by
    norm_num
    linarith
  have hfull : w < 2 ^ (53 : Int) := by
    norm_num
    linarith
  constructor
  · calc (2 : ℚ) ^ (-1075 : Int) = 2 ^ (-1 : Int) * 2 ^ minExponent := by
          rw [← zpow_add₀ two_ne_zero]
          rfl
      _ ≤ w * 2 ^ e := mul_le_mul hhalf (two_zpow_le hfinite.exponent_ge)
          (two_zpow_pos _).le (le_trans (two_zpow_pos _).le hhalf)
  · calc w * 2 ^ e < 2 ^ (53 : Int) * 2 ^ e := mul_lt_mul_of_pos_right hfull (two_zpow_pos e)
      _ = 2 ^ (53 + e) := (zpow_add₀ two_ne_zero 53 e).symm
      _ ≤ 2 ^ (1024 : Int) := two_zpow_le (by have := hfinite.exponent_le; omega)

theorem digits_pos_of_contains {d : Decimal} {m : Nat} {e : Int} (hfinite : IsFinite m e)
    (h : (Interval.around m e).Contains (e - 2) d.value) : 0 < d.digits := by
  have hsmall := (Interval.bounds_of_contains hfinite h).1
  rw [Nat.pos_iff_ne_zero]
  intro hzero
  rw [value, hzero, Nat.cast_zero, zero_mul] at hsmall
  exact absurd hsmall (not_le.mpr (two_zpow_pos _))

/-- **A decimal in the interval of a number** is read as the bits of the number. -/
theorem toBits_of_contains {d : Decimal} {m : Nat} {e : Int} (hfinite : IsFinite m e)
    (h : (Interval.around m e).Contains (e - 2) d.value) :
    d.toBits = (e - minExponent).toNat * leastFull + m := by
  obtain ⟨hsmall, hlarge⟩ := Interval.bounds_of_contains hfinite h
  have hd := digits_pos_of_contains hfinite h
  obtain ⟨hlow, hhigh⟩ := leadingExponent_spec hd
  have hinfinite : ¬ d.leadingExponent > 310 := by
    intro hlead
    have hten : (10 : ℚ) ^ (310 : Int) ≤ 10 ^ d.leadingExponent := ten_zpow_le (by omega)
    have htwo : (2 : ℚ) ^ (1024 : Int) ≤ 10 ^ (310 : Int) := by
      have h : 2 ^ 1024 ≤ 10 ^ 310 := by decide +kernel
      exact_mod_cast h
    exact absurd hlarge (not_lt.mpr (htwo.trans (hten.trans hlow)))
  have hzero : ¬ d.leadingExponent < -330 := by
    intro hlead
    have hten : (10 : ℚ) ^ (d.leadingExponent + 1) ≤ 10 ^ (-330 : Int) := ten_zpow_le (by omega)
    have htwo : (10 : ℚ) ^ (-330 : Int) ≤ 2 ^ (-1075 : Int) := by
      have h : 2 ^ 1075 ≤ 10 ^ 330 := by decide +kernel
      rw [zpow_neg, zpow_neg]
      refine inv_anti₀ (two_zpow_pos _) ?_
      exact_mod_cast h
    exact absurd hhigh (not_lt.mpr (hten.trans (htwo.trans hsmall)))
  obtain ⟨p, q, hpq, hp, hq, hratio⟩ := powerRatio_spec 10 (by decide) d.exponent
  have hvalue : d.value = ((d.digits * p : Nat) : ℚ) / q := by
    rw [value, Nat.cast_mul, mul_div_assoc, hratio]
    rfl
  rw [hvalue] at h
  rw [toBits, if_neg hd.ne', if_neg hinfinite, if_neg hzero, hpq]
  exact roundToBits_of_contains (Nat.mul_pos hd hp) hq hfinite h

theorem toBits_of_value_eq_zero {d : Decimal} (h : d.value = 0) : d.toBits = 0 := by
  have hd : d.digits = 0 := by
    rw [value, mul_eq_zero] at h
    exact Nat.cast_eq_zero.mp (h.resolve_right (ten_zpow_pos _).ne')
  rw [toBits, if_pos hd]

/-! ## From texts to numbers -/

/-- What starts with a digit is neither infinity nor not-a-number, and has no sign. -/
theorem readFloat?_of_isUnsigned (negative : Bool) {text : List Char}
    (h : Json.Token.isUnsigned text = true) :
    readFloat? (String.ofList (minus negative ++ text))
      = (readUnsigned? text).map fun d => signedFloat negative d.toBits := by
  obtain ⟨c, cs, rfl, hc⟩ : ∃ c cs, text = c :: cs ∧ isDigit c = true := by
    cases text with
    | nil => cases h
    | cons c cs =>
        refine ⟨c, cs, rfl, ?_⟩
        by_contra hc
        simp [Json.Token.isUnsigned, hc] at h
  have hsplit : splitSign (minus negative ++ c :: cs) = (negative, c :: cs) := by
    cases negative
    · unfold splitSign
      split
      · next heq =>
          cases heq
          cases hc
      · next heq =>
          cases heq
          cases hc
      · rfl
    · rfl
  have hword : ∀ d ds, isDigit d = false → (c :: cs).map Char.toLower ≠ d :: ds := by
    rintro d ds hd heq
    rw [List.map_cons, Char.toLower_eq_of_not_isUpper (not_isUpper_of_isDigit hc)] at heq
    cases heq
    rw [hc] at hd
    cases hd
  have hinfinity : ¬ ((c :: cs).map Char.toLower = "inf".toList ∨
      (c :: cs).map Char.toLower = "infinity".toList) := by
    rintro (heq | heq)
    · exact hword 'i' _ rfl heq
    · exact hword 'i' _ rfl heq
  rw [readFloat?, String.toList_ofList, hsplit]
  simp only [if_neg hinfinity]
  exact if_neg (hword 'n' _ rfl)

end Decimal

namespace Binary

/-! ## The parts of a number -/

/-- **A finite number** is zero, or its mantissa and its exponent say which it is. -/
theorem ofFloat_of_isFinite {x : Float} (hx : x.isFinite = true) :
    ∃ negative m e, ofFloat x = .finite negative m e ∧ (m = 0 ∧ e = minExponent ∨ IsFinite m e) ∧
      x.toBits.toNat
        = (if negative then 1 <<< 63 else 0) + ((e - minExponent).toNat * leastFull + m) := by
  rw [isFinite_iff] at hx
  have hlt := x.toBits.toNat_lt
  rw [ofFloat]
  generalize x.toBits.toNat = bits at *
  have hleast : leastFull = 2 ^ 52 := rfl
  have hmin : minExponent = -1074 := rfl
  have hfield : bits >>> 52 % 2048 = bits / 2 ^ 52 % 2 ^ 11 := by
    rw [Nat.shiftRight_eq_div_pow]
    rfl
  have hsign : (if (bits >>> 63 % 2 == 1) = true then 1 <<< 63 else 0)
      = bits / 2 ^ 63 * 2 ^ 63 := by
    have hbit : bits >>> 63 % 2 = bits / 2 ^ 63 := by
      rw [Nat.shiftRight_eq_div_pow]
      omega
    have hcases : bits / 2 ^ 63 = 0 ∨ bits / 2 ^ 63 = 1 := by omega
    rw [hbit]
    rcases hcases with h | h <;> rw [h] <;> rfl
  simp only [ofBits, hfield, if_neg hx]
  split
  · next hzero =>
      refine ⟨_, _, _, rfl, ?_, ?_⟩
      · rcases Nat.eq_zero_or_pos (bits % leastFull) with hm | hm
        · exact Or.inl ⟨hm, rfl⟩
        · exact Or.inr ⟨hm, by rw [hleast]; omega, Or.inl rfl, le_rfl, by omega⟩
      · rw [hsign, sub_self, hleast, Int.toNat_zero]
        omega
  · next hpos =>
      have hexp : (((bits / 2 ^ 52 % 2 ^ 11 : Nat) : Int) - 1 + minExponent - minExponent).toNat
          = bits / 2 ^ 52 % 2 ^ 11 - 1 := by omega
      refine ⟨_, _, _, rfl, Or.inr ?_, ?_⟩
      · rw [hleast]
        exact ⟨by omega, by omega, Or.inr (by omega), by omega, by omega⟩
      · rw [hsign, hexp, hleast]
        omega

end Binary

namespace Number

/-! ## The interchange format -/

/-- The decimal that is written for the size of a number is read as its bits. -/
theorem exists_writes {m : Nat} {e : Int} (h : m = 0 ∧ e = minExponent ∨ IsFinite m e)
    (plain : Prop) [Decidable plain] (hplain : m = 0 → plain) :
    let d := Decimal.shortest .toEven m e
    ∃ v, Decimal.Writes (if plain then d.plainWithFraction else d.scientific).toList v ∧
      ∀ d' : Decimal, d'.value = v → d'.toBits = (e - minExponent).toNat * leastFull + m := by
  intro d
  rcases h with ⟨rfl, rfl⟩ | hfinite
  · have hzero : (Decimal.shortest .toEven 0 minExponent).plainWithFraction = "0.0" := by decide
    rw [if_pos (hplain rfl), hzero]
    refine ⟨0, ⟨rfl, ⟨0, -1⟩, rfl, by simp [Decimal.value]⟩, fun d' hd' => ?_⟩
    rw [Decimal.toBits_of_value_eq_zero hd', sub_self]
    rfl
  · have hcontains := Decimal.contains_shortest .toEven hfinite
    have hd := Decimal.digits_pos_of_contains hfinite hcontains
    refine ⟨d.value, ?_, fun d' hd' => Decimal.toBits_of_contains hfinite (hd' ▸ hcontains)⟩
    split
    · exact Decimal.writes_plainWithFraction hd
    · exact Decimal.writes_scientific hd

/-- What writes a decimal that is rounded to the size of a number is read as the number. -/
theorem readFloat?_of_writes {x : Float} {negative : Bool} {m : Nat} {e : Int} {text : List Char}
    {v : ℚ} (hbits : x.toBits.toNat
      = (if negative then 1 <<< 63 else 0) + ((e - minExponent).toNat * leastFull + m))
    (hwrites : Decimal.Writes text v)
    (hround : ∀ d : Decimal, d.value = v → d.toBits = (e - minExponent).toNat * leastFull + m) :
    Decimal.readFloat? (String.ofList (Decimal.minus negative ++ text)) = some x := by
  obtain ⟨hunsigned, d, hread, hvalue⟩ := hwrites
  have hsum : (if negative = true then (e - minExponent).toNat * leastFull + m + 1 <<< 63
      else (e - minExponent).toNat * leastFull + m) = x.toBits.toNat := by
    rw [hbits]
    split <;> omega
  rw [Decimal.readFloat?_of_isUnsigned _ hunsigned, hread, Option.map_some,
    hround d hvalue, Decimal.signedFloat, hsum, UInt64.ofNat_toNat, ofBits_toBits]

/-- **A finite number is read back from its text**, bit by bit. -/
theorem json_spec {x : Float} (hx : x.isFinite = true) :
    ∃ (negative : Bool) (text : List Char),
      (json x).toList = Decimal.minus negative ++ text ∧
      Json.Token.isUnsigned text = true ∧ Decimal.readFloat? (json x) = some x := by
  obtain ⟨negative, m, e, hparts, hcases, hbits⟩ := ofFloat_of_isFinite hx
  let d := Decimal.shortest .toEven m e
  let isPlain := minPlainExponent ≤ d.leadingExponent ∧ d.leadingExponent ≤ maxPlainExponent
  have hplain : m = 0 → isPlain := by
    rintro rfl
    have hzero : d = ⟨0, 0⟩ := if_pos rfl
    show minPlainExponent ≤ d.leadingExponent ∧ d.leadingExponent ≤ maxPlainExponent
    rw [hzero]
    decide
  obtain ⟨v, hwrites, hround⟩ := exists_writes hcases isPlain hplain
  have htext : (json x).toList = Decimal.minus negative
      ++ (if isPlain then d.plainWithFraction else d.scientific).toList := by
    rw [json, hparts, String.toList_append]
    cases negative <;> rfl
  refine ⟨negative, _, htext, hwrites.1, ?_⟩
  rw [← String.ofList_toList (s := json x), htext]
  exact readFloat?_of_writes hbits hwrites hround

/-! ## Texts for people -/

/-- The text of a finite number but zero is its sign and the decimal of its size. -/
theorem toList_plain {x : Float} (hx : x.isFinite = true) (hne : (x == 0) = false) :
    ∃ negative m e, IsFinite m e ∧
      (plain x).toList = Decimal.minus negative ++ (Decimal.shortest .up m e).plain.toList ∧
      x.toBits.toNat
        = (if negative then 1 <<< 63 else 0) + ((e - minExponent).toNat * leastFull + m) := by
  obtain ⟨negative, m, e, hparts, hzero | hfinite, hbits⟩ := ofFloat_of_isFinite hx
  · obtain ⟨rfl, rfl⟩ := hzero
    have hzeros : x.toBits = 0 ∨ x.toBits = 0x8000000000000000 := by
      rw [← UInt64.toNat_inj, ← UInt64.toNat_inj, hbits]
      cases negative
      · exact Or.inl rfl
      · exact Or.inr rfl
    rw [(beq_zero_iff x).mpr hzeros] at hne
    cases hne
  · refine ⟨negative, m, e, hfinite, ?_, hbits⟩
    simp only [plain, hne, full, hparts, Bool.false_eq_true, if_false]
    rw [String.toList_append]
    cases negative <;> rfl

/-- **A finite number that is not zero is written as a plain decimal**, and read back from it. -/
theorem plain_spec {x : Float} (hx : x.isFinite = true) (hne : (x == 0) = false) :
    Decimal.IsPlain (plain x).toList ∧ Decimal.readFloat? (plain x) = some x := by
  obtain ⟨negative, m, e, hfinite, htext, hbits⟩ := toList_plain hx hne
  have hcontains := Decimal.contains_shortest .up hfinite
  have hd := Decimal.digits_pos_of_contains hfinite hcontains
  refine ⟨htext ▸ Decimal.isPlain_plain hd negative, ?_⟩
  rw [← String.ofList_toList (s := plain x), htext]
  exact readFloat?_of_writes hbits (Decimal.writes_plain hd) fun d' hd' =>
    Decimal.toBits_of_contains hfinite (hd' ▸ hcontains)

/-- The text of a size has no minus. -/
theorem chars_plain_abs {x : Float} (hx : x.isFinite = true) (hne : (x == 0) = false) :
    (plain x.abs).toList ≠ [] ∧
      ∀ c ∈ (plain x.abs).toList, Decimal.isDigit c = true ∨ c = '.' := by
  have habs : (x.abs == 0) = false := (abs_beq_zero hx).trans hne
  obtain ⟨negative, m, e, hfinite, htext, hbits⟩ := toList_plain (isFinite_abs hx) habs
  have hsize := toNat_toBits_abs hx
  cases negative with
  | false =>
      have hunsigned : (plain x.abs).toList = (Decimal.shortest .up m e).plain.toList := htext
      rw [hunsigned]
      exact Decimal.chars_plain
        (Decimal.digits_pos_of_contains hfinite (Decimal.contains_shortest .up hfinite))
  | true =>
      have hsign : (if true then 1 <<< 63 else 0) = 2 ^ 63 := rfl
      omega

end Number

end GeometricAlgebra

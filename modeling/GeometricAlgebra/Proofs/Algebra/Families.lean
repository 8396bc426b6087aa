import GeometricAlgebra.Proofs.Algebra.Exterior
import GeometricAlgebra.Proofs.Algebra.Product

set_option autoImplicit false

/-! # Operations on families of coefficients

A blade with a coefficient is a multiple of the family of the blade, and sums, multiples and outer
products of multivectors are those of their families. The signature plays no part in any of them. -/

namespace GeometricAlgebra

open Blade Product

/-! ## Blades with a coefficient -/

section Blades

variable {α : Type} [CommRing α] {S : Scalars α} {n : Nat}

theorem Terms.coeff_singleton (b : Nat) (v : α) :
    coeff ((∅ : Terms α).insert b v) = v • bladeFamily b := by
  funext r
  rw [coeff, Std.ExtTreeMap.getD_insert, Pi.smul_apply, bladeFamily]
  by_cases hr : r = b
  · simp [hr]
  · have hne : ¬ compare b r = .eq := fun h => hr (Nat.compare_eq_eq.mp h).symm
    simp [hr, hne]

namespace Multivector

theorem represents_zero : (zero : Multivector α).Represents S n 0 :=
  ⟨∅, fun r => by simp, rfl⟩

theorem represents_scalar {v : α} (hv : S.isZero v = false) :
    (scalar v).Represents S n (v • bladeFamily 0) := by
  have hkept : Terms.dropZeros S ((∅ : Terms α).insert 0 v) = (∅ : Terms α).insert 0 v := by
    apply Std.ExtTreeMap.ext_getElem?
    intro b
    rw [Terms.dropZeros, Std.ExtTreeMap.getElem?_filter', Std.ExtTreeMap.getElem?_insert]
    split
    · rw [Option.filter_some, hv]
      rfl
    · simp
  refine ⟨(∅ : Terms α).insert 0 v, fun r => ?_, ?_⟩
  · rw [Terms.coeff_singleton]
    split
    · rfl
    · next hr =>
        have hpos := Nat.two_pow_pos n
        rw [Pi.smul_apply, bladeFamily, if_neg (by omega), smul_zero]
  · rw [Terms.compact, hkept]
    rfl

theorem hasCoeffs_scalar (v : α) : (scalar v).HasCoeffs n (v • bladeFamily 0) := by
  refine ⟨trivial, fun r _ => ?_⟩
  rw [coeff, get?, Pi.smul_apply, bladeFamily]
  split <;> simp

theorem hasCoeffs_ofBlade {b : Nat} (hn : n ≤ maxDimension) (hb : b < 2 ^ n) (v : α) :
    (ofBlade b v).HasCoeffs n (v • bladeFamily b) := by
  have hlookup : ∀ k w, (Std.ExtTreeMap.ofList [(rank b, v)] : Terms α)[k]? = some w
      ↔ k = rank b ∧ w = v := by
    intro k w
    rw [Terms.getElem?_ofList_iff (by simp), List.mem_singleton, Prod.mk.injEq]
  have hle : 2 ^ n ≤ 2 ^ maxDimension := Nat.pow_le_pow_right (by decide) hn
  rw [ofBlade]
  split
  · next h => exact h ▸ hasCoeffs_scalar v
  · refine ⟨fun k hk => ?_, fun r hr => ?_⟩
    · obtain ⟨w, hw⟩ := Terms.mem_iff_exists_getElem?.mp hk
      rw [((hlookup k w).mp hw).1]
      exact rank_lt hn b hb
    · rw [ofRanks, coeff, get?, Pi.smul_apply, bladeFamily, smul_eq_mul, mul_ite, mul_one, mul_zero]
      by_cases hrb : r = b
      · rw [if_pos hrb, if_pos (by rw [hrb]), (hlookup _ v).mpr ⟨by rw [hrb], rfl⟩,
          Option.getD_some]
      · rw [if_neg hrb]
        split
        · next hgrade =>
            -- another blade of the grade has another rank
            cases hget : (Std.ExtTreeMap.ofList [(rank b, v)] : Terms α)[rank r]? with
            | none => rfl
            | some w =>
                have hrank := ((hlookup _ w).mp hget).1
                exact absurd (Terms.eq_of_grade_rank (hr.trans_le hle) (hb.trans_le hle) hgrade
                  hrank) hrb
        · rfl

/-- The terms of a blade have its grade. -/
theorem grade_of_mem_ofBlade {b : Nat} (hn : n ≤ maxDimension) (hb : b < 2 ^ n) {v : α}
    {t : Nat × α} (ht : t ∈ (ofBlade b v).terms) : grade t.1 = grade b := by
  have hrange := (hasCoeffs_ofBlade hn hb v).inRange
  rw [ofBlade] at ht hrange
  split at ht
  · next h =>
      rw [terms, List.mem_singleton] at ht
      rw [ht, h]
  · next h =>
      rw [if_neg h] at hrange
      exact (lt_of_mem_gradeTerms hn hrange ht).2

/-! ## Multivectors of one grade -/

/-- The coefficients by blade are coefficients outside the algebra too, where they are zero. -/
theorem InRange.hasCoeffs_toTerms {mv : Multivector α} (hn : n ≤ maxDimension)
    (h : mv.InRange n) : mv.HasCoeffs n (Terms.coeff mv.toTerms) := by
  refine ⟨h, fun r hr => ?_⟩
  rw [coeff_toTerms hn h, if_pos hr]

theorem InRange.ofGrade_toTerms {mv : Multivector α} {k : Nat} (hn : n ≤ maxDimension)
    (h : mv.InRange n) (hgrade : ∀ t ∈ mv.terms, grade t.1 = k) :
    OfGrade n k (Terms.coeff mv.toTerms) := by
  intro r hr
  rw [Terms.coeff_eq_getElem?] at hr
  cases hget : mv.toTerms[r]? with
  | none => exact absurd (by rw [hget]; rfl) hr
  | some v =>
      have hmem := (getElem?_toTerms_iff hn h).mp hget
      exact ⟨lt_of_mem_terms hn h hmem, hgrade _ hmem⟩

end Multivector

end Blades

namespace Algebra

variable {α : Type}

theorem dimension_le (A : Algebra α) : A.dimension ≤ maxDimension := A.signature.dimension_le

section Ring

variable [CommRing α] {A : Algebra α} {a b : Multivector α} {x y : Nat → α}

theorem add_spec (hS : A.scalars.IsRing) (ha : a.HasCoeffs A.dimension x)
    (hb : b.HasCoeffs A.dimension y) :
    ∃ c, A.add a b = .ok c ∧ c.Represents A.scalars A.dimension (x + y) := by
  refine ⟨Terms.compact A.scalars (Terms.addAll A.scalars a.toTerms b), ?_,
    Multivector.represents_compact fun r => ?_⟩
  · rw [add, validate_eq_ok_iff.mpr ha.inRange, validate_eq_ok_iff.mpr hb.inRange]
    rfl
  · have hsum := Multivector.sum_terms_ite_eq A.dimension_le hb.inRange r (g := fun v => v) rfl
    rw [Terms.addAll, Terms.coeff_foldl (fun s _ u => Terms.coeff_add hS u s.1 r s.2), hsum,
      Multivector.coeff_toTerms A.dimension_le ha.inRange]
    split
    · next hr => rw [ha.coeff_eq r hr, hb.coeff_eq r hr, Pi.add_apply]
    · rw [zero_add]

theorem subtract_spec (hS : A.scalars.IsRing) (ha : a.HasCoeffs A.dimension x)
    (hb : b.HasCoeffs A.dimension y) :
    ∃ c, A.subtract a b = .ok c ∧ c.Represents A.scalars A.dimension (x - y) := by
  refine ⟨Terms.compact A.scalars (Terms.subtractAll A.scalars a.toTerms b), ?_,
    Multivector.represents_compact fun r => ?_⟩
  · rw [subtract, validate_eq_ok_iff.mpr ha.inRange, validate_eq_ok_iff.mpr hb.inRange]
    rfl
  · have hstep : ∀ s ∈ b.terms, ∀ u, Terms.coeff (Terms.subtract A.scalars u s.1 s.2) r
        = Terms.coeff u r + if s.1 = r then -s.2 else 0 := by
      intro s _ u
      rw [Terms.coeff_subtract hS]
      split <;> simp [sub_eq_add_neg]
    rw [Terms.subtractAll, Terms.coeff_foldl hstep,
      Multivector.sum_terms_ite_eq A.dimension_le hb.inRange r (g := (- ·)) neg_zero,
      Multivector.coeff_toTerms A.dimension_le ha.inRange]
    split
    · next hr => rw [ha.coeff_eq r hr, hb.coeff_eq r hr, Pi.sub_apply, sub_eq_add_neg]
    · rw [zero_add]

/-- Multivectors with the same coefficients are equal to the library, whatever their forms. -/
theorem areEqual_spec (hS : A.scalars.IsRing) (hE : A.scalars.IsExact)
    (ha : a.HasCoeffs A.dimension x) (hb : b.HasCoeffs A.dimension x) :
    A.areEqual a b = .ok true := by
  obtain ⟨c, hc, rc⟩ := subtract_spec hS ha hb
  rw [sub_self] at rc
  obtain rfl := rc.unique hE.isZero_zero Multivector.represents_zero
  rw [areEqual, hc]
  rfl

theorem scale_spec (hS : A.scalars.IsRing) (ha : a.HasCoeffs A.dimension x) (factor : α) :
    ∃ c, A.scale a factor = .ok c ∧ c.Represents A.scalars A.dimension (factor • x) := by
  refine ⟨Terms.compact A.scalars (Terms.addScaled A.scalars ∅ a.terms factor), ?_,
    Multivector.represents_compact fun r => ?_⟩
  · rw [scale, validate_eq_ok_iff.mpr ha.inRange]
    rfl
  · rw [Terms.coeff_addScaled hS, Terms.coeff_empty, zero_add,
      Multivector.sum_terms_ite_eq A.dimension_le ha.inRange r (g := (· * factor))
        (zero_mul factor)]
    split
    · next hr => rw [ha.coeff_eq r hr, Pi.smul_apply, smul_eq_mul, mul_comm]
    · rfl

/-- Disjoint blades share no vector, so no square counts. -/
theorem signs_outer (A : Algebra α) : A.signs .outer = outerSign := by
  funext i j
  rw [signs, sign_eq, outerSign]
  by_cases h : i &&& j = 0
  · have hfilter : filterCommuting .outer i j (geometricSign A.signature i j)
        = geometricSign A.signature i j := rfl
    rw [if_pos h, if_pos (by simpa [keeps] using h), hfilter, geometricSign_eq, h, metricSign_zero,
      one_mul]
  · rw [if_neg h, if_neg (by simpa [keeps] using h), Int.cast_zero]

theorem outer_spec (hS : A.scalars.IsRing) (hE : A.scalars.IsExact)
    (ha : a.HasCoeffs A.dimension x) (hb : b.HasCoeffs A.dimension y) :
    ∃ c, A.product .outer a b = .ok c ∧
      c.Represents A.scalars A.dimension (outerProduct x y) := by
  obtain ⟨c, hc, rc⟩ := product_spec hS hE.isZero_zero .outer ha hb
  refine ⟨c, hc, rc.congr fun r hr => ?_⟩
  rw [signs_outer, outerProduct_eq_convolve _ _ hr]

end Ring

end Algebra

end GeometricAlgebra

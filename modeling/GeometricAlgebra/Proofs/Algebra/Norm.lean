import GeometricAlgebra.Proofs.Algebra.Involution
import GeometricAlgebra.Proofs.Algebra.Metric

set_option autoImplicit false

/-! # The squared norm

The scalar product of a multivector with its reverse only meets every blade with itself. The swaps
that sort a blade followed by itself are those that reverse it, so the two signs cancel and the
product of the squares of its vectors is left (`reverseSign_mul_sign_scalar_self`). Neither the
reverse nor the product loses anything by dropping its zeros, as a blade without a term has the
coefficient zero. -/

namespace GeometricAlgebra

open Blade Product Grade

/-- Reversing a blade takes back the swaps of its product with itself. -/
theorem Product.reverseSign_mul_sign_scalar_self (sig : Signature) (b : Nat) :
    reverseSign (grade b) * sign .scalar sig b b = metricSign sig b := by
  rw [sign_scalar, if_pos rfl, geometricSign_eq, Nat.and_self, reorderSign_self, mul_left_comm,
    reverseSign_mul_self, mul_one]

namespace Algebra

section Ring

variable {α : Type} [CommRing α] {A : Algebra α} {a : Multivector α} {x : Nat → α}

/-- Of a scalar product only the products of equal blades are left. -/
theorem convolve_scalar_zero_eq_sum (n : Nat) (x y : Nat → α) :
    convolve n (A.signs .scalar) x y 0
      = ∑ b ∈ Finset.range (2 ^ n), A.signs .scalar b b * x b * y b := by
  refine Finset.sum_congr rfl fun i hi => ?_
  simp only [Nat.xor_eq_zero_iff]
  rw [Finset.sum_ite_eq, if_pos hi]

theorem convolve_scalar_reverse (n : Nat) (x : Nat → α) :
    convolve n (A.signs .scalar) x (gradeSigns reverseSign * x) 0
      = ∑ b ∈ Finset.range (2 ^ n), (metricSign A.signature b : α) * x b * x b := by
  rw [convolve_scalar_zero_eq_sum]
  refine Finset.sum_congr rfl fun b _ => ?_
  rw [Pi.mul_apply, gradeSigns, signs, ← reverseSign_mul_sign_scalar_self, Int.cast_mul]
  ring

variable (hS : A.scalars.IsRing) (hE : A.scalars.IsExact)

include hS hE

/-- The scalar product with the reverse, on which both the norm and the inverse rest. -/
theorem exists_reverse_scalarProduct (ha : a.HasCoeffs A.dimension x) :
    ∃ r, A.reverse a = .ok r ∧ r.HasCoeffs A.dimension (gradeSigns reverseSign * x) ∧
      A.scalarProduct a r
        = .ok (convolve A.dimension (A.signs .scalar) x (gradeSigns reverseSign * x) 0) := by
  obtain ⟨r, hr, rr⟩ := mapGradeSign_spec hS reverseSign_mul_self ha
  have hreverse := rr.hasCoeffs hE A.dimension_le
  exact ⟨r, hr, hreverse, scalarProduct_eq hS hE ha hreverse⟩

theorem normSquared_of_hasCoeffs (ha : a.HasCoeffs A.dimension x) :
    A.normSquared a
      = .ok (convolve A.dimension (A.signs .scalar) x (gradeSigns reverseSign * x) 0) := by
  obtain ⟨r, hr, -, hnorm⟩ := exists_reverse_scalarProduct hS hE ha
  rw [normSquared, hr]
  exact hnorm

/-- **The squared norm is the metric on the terms.** Every stored term contributes the square of its
    coefficient times the product of the squares of its vectors. So where all vectors square to `1`
    and scalars are ordered, the norm is zero iff every coefficient is. -/
theorem normSquared_metric (ha : A.validate a = .ok ()) :
    A.normSquared a
        = .ok (a.terms.map fun t => (metricSign A.signature t.1 : α) * t.2 * t.2).sum ∧
      ∀ [LinearOrder α] [IsStrictOrderedRing α], A.signature.isEuclidean = true →
        (A.normSquared a = .ok 0 ↔ ∀ t ∈ a.terms, t.2 = 0) := by
  have hrange := validate_eq_ok_iff.mp ha
  have hnorm : A.normSquared a
      = .ok (a.terms.map fun t => (metricSign A.signature t.1 : α) * t.2 * t.2).sum := by
    rw [normSquared_of_hasCoeffs hS hE hrange.hasCoeffs, convolve_scalar_reverse,
      Multivector.sum_terms A.dimension_le hrange
        (fun b v => (metricSign A.signature b : α) * v * v) fun b => by rw [mul_zero]]
  refine ⟨hnorm, fun heuclidean => ?_⟩
  rw [hnorm, Except.ok.injEq]
  simp only [metricSign_of_isEuclidean heuclidean, Int.cast_one, one_mul]
  constructor
  · intro hzero t ht
    have hnonneg : ∀ v ∈ a.terms.map fun t => t.2 * t.2, 0 ≤ v := by
      intro v hv
      obtain ⟨s, -, rfl⟩ := List.mem_map.mp hv
      exact mul_self_nonneg s.2
    have hsquare := List.all_zero_of_le_zero_le_of_sum_eq_zero hnonneg hzero
      (List.mem_map.mpr ⟨t, ht, rfl⟩)
    exact mul_self_eq_zero.mp hsquare
  · intro hzero
    refine List.sum_eq_zero fun v hv => ?_
    obtain ⟨t, ht, rfl⟩ := List.mem_map.mp hv
    rw [hzero t ht, mul_zero]

end Ring

/-- Blades with squares of all three kinds, and the same terms where all vectors square to `1`. -/
theorem normSquared_metric_mixed :
    let A : Algebra Int := ⟨.mixed, .integers, .tree⟩
    let E : Algebra Int := ⟨⟨3, 0, 0, by decide, by decide, by decide, by decide⟩, .integers, .auto⟩
    let a : Multivector Int := .ofBlades [(0, 3), (1, 2), (2, 5), (3, -1), (6, 7)]
    A.validate a = .ok () ∧ A.normSquared a = .ok (9 + 4 - 25 - 1) ∧
      E.signature.isEuclidean = true ∧ E.normSquared a ≠ .ok 0 := by
  intro A E a
  have ha : A.validate a = .ok () := by cbv
  have heuclidean : E.signature.isEuclidean = true := by decide
  have hmixed := normSquared_metric (A := A) Scalars.isRing_integers Scalars.isExact_integers ha
  have hnorm := normSquared_metric (A := E) (a := a) Scalars.isRing_integers
    Scalars.isExact_integers (by cbv)
  refine ⟨ha, ?_, heuclidean, fun hzero => ?_⟩
  · rw [hmixed.1]
    decide +kernel
  · have hterm := (hnorm.2 heuclidean).mp hzero (1, 2) (by decide +kernel)
    exact absurd hterm (by decide)

end Algebra

end GeometricAlgebra

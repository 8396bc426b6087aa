import GeometricAlgebra.Proofs.Algebra.Yields
import GeometricAlgebra.Proofs.Product.Grade

set_option autoImplicit false

/-! # Every product is a part of the geometric product

A convolution is linear in its signs, so equations between signs of products of blades carry over to
multivectors. This splits the geometric product into the commutator and the anticommutator, and the
fat dot product into the two contractions. -/

namespace GeometricAlgebra

open Blade Product

namespace Algebra

section Ring

variable {α : Type} [CommRing α] {A : Algebra α}

theorem signs_commutator_add_anticommutator :
    A.signs .commutator + A.signs .anticommutator = A.signs .geometric := by
  funext i j
  simp only [Pi.add_apply, signs, ← Int.cast_add, sign_commutator_add_anticommutator,
    sign_geometric]

/-- Twice the commutator and the geometric product of the exchanged blades. -/
theorem signs_commutator_add_self :
    A.signs .commutator + A.signs .commutator + (fun i j => A.signs .geometric j i)
      = A.signs .geometric := by
  funext i j
  have h := two_mul_sign_commutator A.signature i j
  simp only [Pi.add_apply, signs, ← Int.cast_add, sign_geometric]
  congr 1
  omega

theorem signs_fatDot_add_scalar :
    A.signs .fatDot + A.signs .scalar = A.signs .left + A.signs .right := by
  funext i j
  simp only [Pi.add_apply, signs, ← Int.cast_add, sign_left_add_right]

theorem convolve_geometric (n : Nat) (x y : Nat → α) :
    convolve n (A.signs .geometric) x y
      = convolve n (A.signs .commutator) x y + convolve n (A.signs .anticommutator) x y := by
  rw [← convolve_add_signs, signs_commutator_add_anticommutator]

theorem convolve_commutator_add_self (n : Nat) (x y : Nat → α) :
    convolve n (A.signs .commutator) x y + convolve n (A.signs .commutator) x y
      = convolve n (A.signs .geometric) x y - convolve n (A.signs .geometric) y x := by
  rw [eq_sub_iff_add_eq, convolve_swap _ y, ← convolve_add_signs, ← convolve_add_signs,
    signs_commutator_add_self]

theorem convolve_fatDot (n : Nat) (x y : Nat → α) :
    convolve n (A.signs .fatDot) x y
      = convolve n (A.signs .left) x y + convolve n (A.signs .right) x y
        - convolve n (A.signs .scalar) x y := by
  rw [eq_sub_iff_add_eq, ← convolve_add_signs, ← convolve_add_signs, signs_fatDot_add_scalar]

end Ring

/-- **Every product is a part of the geometric product.** On blades it keeps the pairs whose product
    has the grade that it is after, or half of the difference or the sum of both orders. So a
    geometric product is the commutator plus the anticommutator, the commutator twice is the
    difference of the geometric products in both orders, and the fat dot product is the sum of the
    contractions less the scalar product that both of them have. -/
theorem product_keepsGrade :
    (∀ (sig : Signature) (a b : Nat),
      (∀ k, k ≠ .commutator → k ≠ .anticommutator →
        sign k sig a b = if keepsGrade k (grade a) (grade b) (grade (a ^^^ b)) then
          geometricSign sig a b else 0) ∧
      2 * sign .commutator sig a b = geometricSign sig a b - geometricSign sig b a ∧
      2 * sign .anticommutator sig a b = geometricSign sig a b + geometricSign sig b a) ∧
    ∀ {α : Type} [CommRing α] (A : Algebra α), A.scalars.IsRing → A.scalars.IsExact →
      ∀ a b, A.validate a = .ok () → A.validate b = .ok () →
        (∃ m, A.product .geometric a b = .ok m ∧
          (do A.add (← A.product .commutator a b) (← A.product .anticommutator a b)) = .ok m) ∧
        (∃ m, (do A.add (← A.product .commutator a b) (← A.product .commutator a b)) = .ok m ∧
          (do A.subtract (← A.product .geometric a b) (← A.product .geometric b a)) = .ok m) ∧
        ∃ m, A.product .fatDot a b = .ok m ∧
          (do
            let sum ← A.add (← A.product .left a b) (← A.product .right a b)
            A.subtract sum (← A.product .scalar a b)) = .ok m := by
  refine ⟨fun sig a b => ⟨fun k hc ha => sign_eq_ite_keepsGrade hc ha sig a b,
    two_mul_sign_commutator sig a b, two_mul_sign_anticommutator sig a b⟩, ?_⟩
  intro α _ A hS hE a b ha hb
  have hx := (validate_eq_ok_iff.mp ha).hasCoeffs
  have hy := (validate_eq_ok_iff.mp hb).hasCoeffs
  have product := fun k => yields_product hS hE k hx hy
  refine ⟨?_, ?_, ?_⟩
  · have hsum := (product .commutator).add hS hE (product .anticommutator)
    rw [← convolve_geometric] at hsum
    exact (product .geometric).eq_ok hE hsum
  · have hsum := (product .commutator).add hS hE (product .commutator)
    rw [convolve_commutator_add_self] at hsum
    exact hsum.eq_ok hE
      ((product .geometric).subtract hS hE (yields_product hS hE .geometric hy hx))
  · have hdifference := (product .left).bind hE fun _ hleft =>
      (product .right).bind hE fun _ hright =>
        Yields.bind hE (add_spec hS hleft hright) fun _ hsum =>
          (product .scalar).bind hE fun _ hscalar => subtract_spec hS hsum hscalar
    rw [← convolve_fatDot] at hdifference
    exact (product .fatDot).eq_ok hE hdifference

/-- The blades `e₀ e₁` and `e₀ e₁ e₂`, the blades `e₀` and `e₀ e₁`, and two multivectors with
    contractions, commuting and anticommuting blades. -/
theorem product_keepsGrade_mixed :
    let A : Algebra Int := ⟨.mixed, .integers, .auto⟩
    let a : Multivector Int := .ofBlades [(0, 3), (1, 2), (6, 5)]
    let b : Multivector Int := .ofBlades [(1, 4), (3, -1), (7, 2)]
    sign .left .mixed 3 7 = geometricSign .mixed 3 7 ∧
    2 * sign .commutator .mixed 1 3 = geometricSign .mixed 1 3 - geometricSign .mixed 3 1 ∧
    (∃ m, A.product .geometric a b = .ok m ∧
      (do A.add (← A.product .commutator a b) (← A.product .anticommutator a b)) = .ok m) ∧
    (∃ m, (do A.add (← A.product .commutator a b) (← A.product .commutator a b)) = .ok m ∧
      (do A.subtract (← A.product .geometric a b) (← A.product .geometric b a)) = .ok m) ∧
    ∃ m, A.product .fatDot a b = .ok m ∧
      (do
        let sum ← A.add (← A.product .left a b) (← A.product .right a b)
        A.subtract sum (← A.product .scalar a b)) = .ok m := by
  intro A a b
  obtain ⟨hsign, hproduct⟩ := product_keepsGrade
  have hparts := hproduct A Scalars.isRing_integers Scalars.isExact_integers a b
    (by cbv) (by cbv)
  refine ⟨?_, (hsign .mixed 1 3).2.1, hparts⟩
  rw [(hsign .mixed 3 7).1 .left (by decide) (by decide), if_pos (by decide +kernel)]

end Algebra

end GeometricAlgebra

import GeometricAlgebra.Proofs.Algebra.Yields

set_option autoImplicit false

/-! # The scalar product

Of two blades only equal ones have a scalar product, so it is symmetric and its only coefficient is
that of the scalar blade. The geometric product of two vectors is their scalar product and their
outer product (`convolve_geometric_of_vectors`), so with the factors exchanged it gives twice the
scalar product in sum, and a vector multiplied by itself is a scalar. -/

namespace GeometricAlgebra

open Blade

/-! ## Signs -/

namespace Product

variable (sig : Signature) {a b : Nat}

theorem sign_scalar (a b : Nat) :
    sign .scalar sig a b = if a = b then geometricSign sig a b else 0 := by
  rw [sign_eq]
  simp only [keeps, beq_iff_eq, filterCommuting]

theorem sign_scalar_comm (a b : Nat) : sign .scalar sig a b = sign .scalar sig b a := by
  rw [sign_scalar, sign_scalar]
  by_cases h : a = b
  · rw [h]
  · rw [if_neg h, if_neg fun h' => h h'.symm]

/-- Two basis vectors are equal or share nothing, so their geometric product is their scalar product
    or their outer product. -/
theorem geometricSign_of_grade_one (ha : grade a = 1) (hb : grade b = 1) :
    geometricSign sig a b = sign .scalar sig a b + sign .outer sig a b := by
  obtain ⟨i, rfl⟩ := eq_ofVector_of_grade_eq_one ha
  obtain ⟨j, rfl⟩ := eq_ofVector_of_grade_eq_one hb
  have hshared : ofVector i &&& ofVector j = 0 ↔ ofVector i ≠ ofVector j := by
    rw [← grade_eq_zero_iff, grade_eq_card, Finset.card_eq_zero, vectorSet_and, vectorSet_ofVector,
      vectorSet_ofVector, ← Finset.disjoint_iff_inter_eq_empty, Finset.disjoint_singleton,
      ofVector_injective.ne_iff]
  rw [sign_scalar, sign_eq]
  simp only [keeps, beq_iff_eq, filterCommuting, hshared]
  by_cases h : ofVector i = ofVector j <;> simp [h]

end Product

namespace Algebra

variable {α : Type} [CommRing α] {A : Algebra α}

/-! ## Families -/

section Families

variable {n : Nat} {x y : Nat → α}

/-- A scalar product is a multiple of the scalar blade. -/
theorem convolve_scalar (x y : Nat → α) :
    convolve n (A.signs .scalar) x y
      = convolve n (A.signs .scalar) x y 0 • (bladeFamily 0 : Nat → α) := by
  funext r
  rw [Pi.smul_apply, bladeFamily, smul_eq_mul, mul_ite, mul_one, mul_zero]
  split
  · next hr => rw [hr]
  · next hr =>
      refine Finset.sum_eq_zero fun i _ => Finset.sum_eq_zero fun j _ => ?_
      have hne : i ^^^ j = r → i ≠ j := by
        rintro rfl rfl
        exact hr (Nat.xor_self i)
      split
      · next h => rw [signs, Product.sign_scalar, if_neg (hne h), Int.cast_zero, zero_mul, zero_mul]
      · rfl

/-- The scalar product is the scalar part of the geometric product. -/
theorem convolve_scalar_zero (x y : Nat → α) :
    convolve n (A.signs .scalar) x y 0 = convolve n (A.signs .geometric) x y 0 := by
  refine Finset.sum_congr rfl fun i _ => Finset.sum_congr rfl fun j _ => ?_
  simp only [Nat.xor_eq_zero_iff]
  split
  · next h => rw [signs, signs, Product.sign_scalar, if_pos h, Product.sign_geometric]
  · rfl

theorem convolve_scalar_comm (x y : Nat → α) :
    convolve n (A.signs .scalar) x y = convolve n (A.signs .scalar) y x := by
  rw [convolve_swap]
  congr 1
  funext i j
  rw [signs, signs, Product.sign_scalar_comm]

theorem convolve_outer {k l : Nat} (hx : OfGrade n k x) (hy : OfGrade n l y) :
    convolve n (A.signs .outer) x y = outerProduct x y := by
  have hzero : ∀ {m} {z : Nat → α}, OfGrade n m z → ∀ i, 2 ^ n ≤ i → z i = 0 := fun hz i hi =>
    hz.eq_zero fun h => absurd h.1 (not_lt.mpr hi)
  funext r
  rcases Nat.lt_or_ge r (2 ^ n) with hr | hr
  · rw [signs_outer, outerProduct_eq_convolve _ _ hr]
  · rw [convolve_eq_zero _ _ _ hr, outerProduct_eq_zero (hzero hx) (hzero hy) hr]

/-- The geometric product of two vectors is their scalar product and their outer product. -/
theorem convolve_geometric_of_vectors (hx : OfGrade n 1 x) (hy : OfGrade n 1 y) :
    convolve n (A.signs .geometric) x y
      = convolve n (A.signs .scalar) x y 0 • (bladeFamily 0 : Nat → α) + outerProduct x y := by
  rw [← convolve_scalar, ← convolve_outer (A := A) hx hy, ← convolve_add_signs]
  refine convolve_congr_signs fun i _ j _ hi hj => ?_
  rw [Pi.add_apply, Pi.add_apply, signs, signs, signs, ← Int.cast_add, Product.sign_geometric,
    Product.geometricSign_of_grade_one _ (hx i hi).2 (hy j hj).2]

/-- Two vectors multiplied in both orders give twice their scalar product. -/
theorem convolve_geometric_add_swap (hx : OfGrade n 1 x) (hy : OfGrade n 1 y) :
    convolve n (A.signs .geometric) x y + convolve n (A.signs .geometric) y x
      = (2 * convolve n (A.signs .scalar) x y 0) • (bladeFamily 0 : Nat → α) := by
  rw [convolve_geometric_of_vectors hx hy, convolve_geometric_of_vectors hy hx,
    convolve_scalar_comm y x, outerProduct_neg_comm hy hx, add_add_add_comm, add_neg_cancel,
    add_zero, two_mul, add_smul]

/-- A vector multiplied by itself is a scalar. -/
theorem convolve_geometric_self (hx : OfGrade n 1 x) :
    convolve n (A.signs .geometric) x x
      = convolve n (A.signs .scalar) x x 0 • (bladeFamily 0 : Nat → α) := by
  rw [convolve_geometric_of_vectors hx hx, outerProduct_self hx, add_zero]

end Families

/-! ## Multivectors -/

section Multivectors

variable {e : Except Error (Multivector α)} {a b : Multivector α} {x y : Nat → α}
  (hS : A.scalars.IsRing)

include hS

theorem scalarPart_eq (ha : a.HasCoeffs A.dimension x) : A.scalarPart a = x 0 := by
  rw [scalarPart, hS.zero]
  exact ha.coeff_eq 0 (Nat.two_pow_pos _)

variable (hE : A.scalars.IsExact)

include hE

theorem Yields.scalarPart (h : A.Yields e x) : (do return A.scalarPart (← e)) = .ok (x 0) := by
  obtain ⟨m, rfl, rm⟩ := h
  exact congrArg Except.ok (scalarPart_eq hS (rm.hasCoeffs hE A.dimension_le))

theorem scalarProduct_eq (ha : a.HasCoeffs A.dimension x) (hb : b.HasCoeffs A.dimension y) :
    A.scalarProduct a b = .ok (convolve A.dimension (A.signs .scalar) x y 0) :=
  (yields_product hS hE .scalar ha hb).scalarPart hS hE

end Multivectors

end Algebra

end GeometricAlgebra

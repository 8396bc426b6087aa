import GeometricAlgebra.Proofs.Algebra.Brackets
import GeometricAlgebra.Proofs.Algebra.Geometric
import GeometricAlgebra.Proofs.Blade.Positions
import GeometricAlgebra.Proofs.Signature

set_option autoImplicit false

/-! # Duality

Every blade lies within the pseudoscalar, so contracting onto a multiple of the pseudoscalar drops
nothing: it is the geometric product with it (`convolve_left_pseudoscalar`). Where no vector is null
the pseudoscalar squares to `1` or `-1`, and multiplied by that square it is its own inverse. So the
dual and the undual are products with two inverse multivectors, and each undoes the other. -/

namespace GeometricAlgebra

open Blade Product

/-! ## Degenerate signatures -/

namespace Signature

variable {sig : Signature}

theorem isDegenerate_iff :
    sig.isDegenerate = true ↔ ∃ i < sig.dimension, sig.square i = .zero := by
  have hlt : sig.null < 2 ^ sig.dimension := Nat.one_shiftLeft _ ▸ sig.null_lt
  simp only [square_eq_zero_iff]
  rw [isDegenerate, bne_iff_ne]
  constructor
  · intro h
    obtain ⟨i, hi⟩ := Nat.exists_testBit_of_ne_zero h
    exact ⟨i, lt_two_pow_iff.mp hlt i (mem_vectorSet.mpr hi), hi⟩
  · rintro ⟨i, -, hi⟩ h
    rw [h, Nat.zero_testBit] at hi
    exact absurd hi (by decide)

end Signature

namespace Product

variable {sig : Signature}

theorem sign_left (sig : Signature) (a b : Nat) :
    sign .left sig a b = if within a b = true then geometricSign sig a b else 0 := by
  rw [sign_eq]
  rfl

/-- No blade is outside the pseudoscalar. -/
theorem within_pseudoscalar {b : Nat} (hb : b < 2 ^ sig.dimension) :
    within b sig.pseudoscalar = true := by
  rw [within_iff]
  intro i hi
  rw [← mem_vectorSet, Signature.pseudoscalar, vectorSet_firstVectors sig.dimension_le]
  exact Finset.mem_range.mpr (lt_two_pow_iff.mp hb i (mem_vectorSet.mpr hi))

/-- Without null vectors no product of blades is zero. -/
theorem geometricSign_mul_self (h : sig.isDegenerate = false) (a b : Nat) :
    geometricSign sig a b * geometricSign sig a b = 1 := by
  have hnull : sig.null = 0 := by simpa [Signature.isDegenerate] using h
  have hmetric : metricSign sig (a &&& b) = 1 ∨ metricSign sig (a &&& b) = -1 := by
    rw [metricSign, hnull, Nat.and_zero, if_neg (not_not.mpr rfl)]
    split <;> simp
  rw [geometricSign_eq]
  rcases hmetric with h | h <;> rcases reorderSign_cases a b with h' | h' <;> rw [h, h'] <;> rfl

end Product

namespace Algebra

variable {α : Type} [CommRing α] {A : Algebra α} {x : Nat → α} {c d : α}

/-! ## Families -/

/-- The pseudoscalar with a coefficient. -/
def pseudoscalarFamily (A : Algebra α) (c : α) : Nat → α := c • bladeFamily A.signature.pseudoscalar

/-- The square of the pseudoscalar. -/
def pseudoscalarSquare (A : Algebra α) : α :=
  (geometricSign A.signature A.signature.pseudoscalar A.signature.pseudoscalar : α)

omit [CommRing α] in
theorem pseudoscalar_lt (A : Algebra α) : A.signature.pseudoscalar < 2 ^ A.dimension :=
  firstVectors_lt A.dimension_le

theorem pseudoscalarSquare_mul_self (h : A.signature.isDegenerate = false) :
    A.pseudoscalarSquare * A.pseudoscalarSquare = 1 := by
  rw [pseudoscalarSquare, ← Int.cast_mul, geometricSign_mul_self h, Int.cast_one]

theorem convolve_pseudoscalar (c d : α) :
    convolve A.dimension (A.signs .geometric) (A.pseudoscalarFamily c) (A.pseudoscalarFamily d)
      = (c * d * A.pseudoscalarSquare) • bladeFamily 0 := by
  rw [pseudoscalarFamily, pseudoscalarFamily, convolve_smul_left, convolve_smul_right,
    convolve_bladeFamily _ A.pseudoscalar_lt A.pseudoscalar_lt, Nat.xor_self, signs, sign_geometric,
    smul_smul, smul_smul]
  rfl

theorem convolve_pseudoscalar_cancel (h : c * d * A.pseudoscalarSquare = 1) (x : Nat → α) {r : Nat}
    (hr : r < 2 ^ A.dimension) :
    convolve A.dimension (A.signs .geometric)
      (convolve A.dimension (A.signs .geometric) x (A.pseudoscalarFamily c))
      (A.pseudoscalarFamily d) r = x r := by
  rw [convolve_geometric_assoc, convolve_pseudoscalar, h, one_smul]
  exact convolve_one_right x hr

/-- **Contracting onto the pseudoscalar is multiplying by it.** -/
theorem convolve_left_pseudoscalar (c : α) (x : Nat → α) :
    convolve A.dimension (A.signs .left) x (A.pseudoscalarFamily c)
      = convolve A.dimension (A.signs .geometric) x (A.pseudoscalarFamily c) := by
  refine convolve_congr_signs fun i hi j _ _ hj => ?_
  have hblade : j = A.signature.pseudoscalar := by
    by_contra h
    exact hj (by rw [pseudoscalarFamily, Pi.smul_apply, bladeFamily, if_neg h, smul_zero])
  rw [signs, signs, sign_left, hblade, if_pos (within_pseudoscalar hi), sign_geometric]

/-! ## Multivectors -/

section Multivectors

variable {a b inverse : Multivector α} (hS : A.scalars.IsRing)

theorem hasCoeffs_ofBlade_pseudoscalar (c : α) :
    (Multivector.ofBlade A.signature.pseudoscalar c).HasCoeffs A.dimension
      (A.pseudoscalarFamily c) :=
  Multivector.hasCoeffs_ofBlade A.dimension_le A.pseudoscalar_lt c

include hS in
theorem hasCoeffs_pseudoscalar : A.pseudoscalar.HasCoeffs A.dimension (A.pseudoscalarFamily 1) :=
  hS.one ▸ hasCoeffs_ofBlade_pseudoscalar A.scalars.one

theorem pseudoscalarInverse_eq_ok (hI : ∀ m : Int, A.scalars.ofInt m = m)
    (h : A.signature.isDegenerate = false) :
    ∃ inverse, A.pseudoscalarInverse = .ok inverse ∧
      inverse.HasCoeffs A.dimension (A.pseudoscalarFamily A.pseudoscalarSquare) := by
  refine ⟨_, by rw [pseudoscalarInverse, h]; rfl, ?_⟩
  rw [hI]
  exact hasCoeffs_ofBlade_pseudoscalar _

omit [CommRing α] in
theorem dual_eq (h : A.pseudoscalarInverse = .ok inverse) (a : Multivector α) :
    A.dual a = A.product .left a inverse := by
  rw [dual, h]
  rfl

variable (hE : A.scalars.IsExact)

include hS hE

theorem yields_left_pseudoscalar (ha : a.HasCoeffs A.dimension x)
    (hb : b.HasCoeffs A.dimension (A.pseudoscalarFamily c)) :
    A.Yields (A.product .left a b)
      (convolve A.dimension (A.signs .geometric) x (A.pseudoscalarFamily c)) := by
  rw [← convolve_left_pseudoscalar]
  exact yields_product hS hE .left ha hb

/-- Contracting onto two multiples of the pseudoscalar that are inverse keeps the coefficients. -/
theorem product_left_cancel (ha : a.InRange A.dimension) {p q : Multivector α}
    (hp : p.HasCoeffs A.dimension (A.pseudoscalarFamily c))
    (hq : q.HasCoeffs A.dimension (A.pseudoscalarFamily d)) (h : c * d * A.pseudoscalarSquare = 1) :
    ∃ m, (do A.product .left (← A.product .left a p) q) = .ok m ∧ (m.terms.map Prod.fst).Nodup ∧
      ∀ b v, (b, v) ∈ m.terms ↔ (b, v) ∈ a.terms ∧ v ≠ 0 := by
  have htwice := (yields_left_pseudoscalar hS hE ha.hasCoeffs hp).bind hE fun _ hm =>
    yields_left_pseudoscalar hS hE hm hq
  exact (htwice.congr fun _ => convolve_pseudoscalar_cancel h a.coeff).mem_terms hE ha

/-- Inverse multiples of the pseudoscalar multiply to the scalar one. -/
theorem product_pseudoscalar {p q : Multivector α}
    (hp : p.HasCoeffs A.dimension (A.pseudoscalarFamily c))
    (hq : q.HasCoeffs A.dimension (A.pseudoscalarFamily d)) (h : c * d * A.pseudoscalarSquare = 1) :
    A.product .geometric p q
      = .ok (if A.scalars.isZero A.scalars.one then .zero else .scalar A.scalars.one) := by
  have hproduct := yields_product hS hE .geometric hp hq
  rw [convolve_pseudoscalar, h] at hproduct
  rw [hproduct.eq_scalar hE, hS.one]

end Multivectors

/-- **The dual and the undual are inverse.** Where no basis vector is null the pseudoscalar has an
    inverse on both sides. The dual is the geometric product with that inverse, it and the undual
    undo each other, but that zeros are dropped, and the dual of an outer product is the left
    contraction of the first factor onto the dual of the second. Where a vector is null there is
    neither an inverse nor a dual. -/
theorem dual_undual (hS : A.scalars.IsRing) (hE : A.scalars.IsExact)
    (hI : ∀ m : Int, A.scalars.ofInt m = m) :
    ((∀ i < A.dimension, A.signature.square i ≠ .zero) →
      ∃ inverse, A.pseudoscalarInverse = .ok inverse ∧
        A.product .geometric A.pseudoscalar inverse
          = .ok (if A.scalars.isZero A.scalars.one then .zero else .scalar A.scalars.one) ∧
        A.product .geometric inverse A.pseudoscalar
          = .ok (if A.scalars.isZero A.scalars.one then .zero else .scalar A.scalars.one) ∧
        (∀ a, A.validate a = .ok () →
          (∃ m, (do A.undual (← A.dual a)) = .ok m ∧ (m.terms.map Prod.fst).Nodup ∧
            ∀ b v, (b, v) ∈ m.terms ↔ (b, v) ∈ a.terms ∧ v ≠ 0) ∧
          (∃ m, (do A.dual (← A.undual a)) = .ok m ∧ (m.terms.map Prod.fst).Nodup ∧
            ∀ b v, (b, v) ∈ m.terms ↔ (b, v) ∈ a.terms ∧ v ≠ 0) ∧
          ∃ m, A.dual a = .ok m ∧ A.product .geometric a inverse = .ok m) ∧
        ∀ a b, A.validate a = .ok () → A.validate b = .ok () →
          ∃ m, (do A.dual (← A.product .outer a b)) = .ok m ∧
            (do A.product .left a (← A.dual b)) = .ok m) ∧
    ((∃ i < A.dimension, A.signature.square i = .zero) →
      ∃ e, e.kind = .singular ∧ A.pseudoscalarInverse = .error e ∧ ∀ a, A.dual a = .error e) := by
  refine ⟨fun hsquares => ?_, fun hsquares => ?_⟩
  · have hnull : A.signature.isDegenerate = false := by
      rw [← Bool.not_eq_true, Signature.isDegenerate_iff]
      rintro ⟨i, hi, hzero⟩
      exact hsquares i hi hzero
    have hsquare := pseudoscalarSquare_mul_self hnull
    have hp := hasCoeffs_pseudoscalar hS
    obtain ⟨inverse, hinverse, hcoeffs⟩ := pseudoscalarInverse_eq_ok hI hnull
    refine ⟨inverse, hinverse, product_pseudoscalar hS hE hp hcoeffs (by rwa [one_mul]),
      product_pseudoscalar hS hE hcoeffs hp (by rwa [mul_one]), fun a ha => ?_, fun a b ha hb => ?_⟩
    · rw [validate_eq_ok_iff] at ha
      simp only [dual_eq hinverse]
      refine ⟨product_left_cancel hS hE ha hcoeffs hp (by rwa [mul_one]),
        product_left_cancel hS hE ha hp hcoeffs (by rwa [one_mul]), ?_⟩
      exact (yields_left_pseudoscalar hS hE ha.hasCoeffs hcoeffs).eq_ok hE
        (yields_product hS hE .geometric ha.hasCoeffs hcoeffs)
    · simp only [dual_eq hinverse]
      exact product_rebracket hS hE rebrackets_outer_left (validate_eq_ok_iff.mp ha).hasCoeffs
        (validate_eq_ok_iff.mp hb).hasCoeffs hcoeffs
  · have hinverse : A.pseudoscalarInverse = .error (.nullPseudoscalar A.signature.name) :=
      if_pos (Signature.isDegenerate_iff.mpr hsquares)
    exact ⟨_, rfl, hinverse, fun a => by rw [dual, hinverse]; rfl⟩

/-- An algebra with vectors that square to `-1` and whose pseudoscalar squares to `-1`, and one with
    a null vector. -/
theorem dual_undual_sample :
    let A : Algebra Int :=
      ⟨⟨3, 6, 0, by decide, by decide, by decide, by decide⟩, .integers, .auto⟩
    let B : Algebra Int := ⟨.mixed, .integers, .auto⟩
    let a : Multivector Int := .ofBlades [(0, 3), (1, 2), (6, 5)]
    let b : Multivector Int := .vector [1, -1, 4]
    (∃ inverse, A.pseudoscalarInverse = .ok inverse ∧
      A.product .geometric A.pseudoscalar inverse = .ok (.scalar 1) ∧
      A.product .geometric inverse A.pseudoscalar = .ok (.scalar 1) ∧
      (∃ m, (do A.undual (← A.dual a)) = .ok m ∧ (6, 5) ∈ m.terms) ∧
      (∃ m, (do A.dual (← A.undual a)) = .ok m ∧ (6, 5) ∈ m.terms) ∧
      (∃ m, A.dual a = .ok m ∧ A.product .geometric a inverse = .ok m) ∧
      ∃ m, (do A.dual (← A.product .outer a b)) = .ok m ∧
        (do A.product .left a (← A.dual b)) = .ok m) ∧
    ∃ e, e.kind = .singular ∧ B.pseudoscalarInverse = .error e ∧ B.dual a = .error e := by
  intro A B a b
  obtain ⟨hregular, -⟩ := dual_undual (A := A) Scalars.isRing_integers Scalars.isExact_integers
    fun _ => rfl
  obtain ⟨-, hdegenerate⟩ := dual_undual (A := B) Scalars.isRing_integers Scalars.isExact_integers
    fun _ => rfl
  obtain ⟨inverse, hinverse, hone, hone', htrip, houter⟩ := hregular (by decide +kernel)
  obtain ⟨e, hkind, herror, hdual⟩ := hdegenerate (by decide +kernel)
  have ha : A.validate a = .ok () := by cbv
  obtain ⟨⟨m, hm, -, hterms⟩, ⟨m', hm', -, hterms'⟩, hgeometric⟩ := htrip a ha
  refine ⟨⟨inverse, hinverse, hone, hone', ⟨m, hm, ?_⟩, ⟨m', hm', ?_⟩, hgeometric,
    houter a b ha (by cbv)⟩, e, hkind, herror, hdual a⟩
  · rw [hterms]
    decide +kernel
  · rw [hterms']
    decide +kernel

end Algebra

end GeometricAlgebra

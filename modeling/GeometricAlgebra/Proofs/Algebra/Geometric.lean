import GeometricAlgebra.Proofs.Algebra.Families

set_option autoImplicit false

/-! # The geometric product is associative

The cocycle identity of the geometric sign makes nested geometric products convolutions with the
same signs, so the geometric product is associative; and as a scalar factor has the sign `1`, the
scalar one is its unit. -/

namespace GeometricAlgebra

open Product

namespace Algebra

section Ring

variable {α : Type} [CommRing α] {A : Algebra α}

theorem signs_geometric_cocycle (i j l : Nat) :
    A.signs .geometric i j * A.signs .geometric (i ^^^ j) l
      = A.signs .geometric j l * A.signs .geometric i (j ^^^ l) := by
  simp only [signs, sign_geometric]
  rw [← Int.cast_mul, geometricSign_cocycle, Int.cast_mul]

/-! ## Families -/

theorem convolve_geometric_assoc (x y z : Nat → α) :
    convolve A.dimension (A.signs .geometric) (convolve A.dimension (A.signs .geometric) x y) z
      = convolve A.dimension (A.signs .geometric) x
        (convolve A.dimension (A.signs .geometric) y z) :=
  funext (convolve_assoc signs_geometric_cocycle x y z)

theorem convolve_one_left (x : Nat → α) {r : Nat} (hr : r < 2 ^ A.dimension) :
    convolve A.dimension (A.signs .geometric) (bladeFamily 0) x r = x r :=
  convolve_unit_left (fun j => by simp [signs]) (by simp [bladeFamily])
    (fun i hi => by simp [bladeFamily, hi]) x hr

theorem convolve_one_right (x : Nat → α) {r : Nat} (hr : r < 2 ^ A.dimension) :
    convolve A.dimension (A.signs .geometric) x (bladeFamily 0) r = x r :=
  convolve_unit_right (fun i => by simp [signs]) x (by simp [bladeFamily])
    (fun i hi => by simp [bladeFamily, hi]) hr

/-! ## Multivectors -/

/-- Both ways of bracketing three multivectors give the same result. -/
theorem product_geometric_bracket (hS : A.scalars.IsRing) (hE : A.scalars.IsExact)
    {a b c : Multivector α} (ha : a.InRange A.dimension) (hb : b.InRange A.dimension)
    (hc : c.InRange A.dimension) :
    ∃ ab bc abc, A.product .geometric a b = .ok ab ∧ A.product .geometric b c = .ok bc ∧
      A.product .geometric ab c = .ok abc ∧ A.product .geometric a bc = .ok abc := by
  have h0 := hE.isZero_zero
  have hn := A.dimension_le
  obtain ⟨ab, hab, rab⟩ := product_spec hS h0 .geometric ha.hasCoeffs hb.hasCoeffs
  obtain ⟨bc, hbc, rbc⟩ := product_spec hS h0 .geometric hb.hasCoeffs hc.hasCoeffs
  obtain ⟨abc, hleft, rleft⟩ := product_spec hS h0 .geometric (rab.hasCoeffs hE hn) hc.hasCoeffs
  obtain ⟨abc', hright, rright⟩ := product_spec hS h0 .geometric ha.hasCoeffs (rbc.hasCoeffs hE hn)
  have heq : abc' = abc := rright.unique h0 (rleft.congr fun r _ =>
    congrFun (convolve_geometric_assoc a.coeff b.coeff c.coeff) r)
  exact ⟨ab, bc, abc, hab, hbc, hleft, heq ▸ hright⟩

theorem hasCoeffs_one (hS : A.scalars.IsRing) :
    (Multivector.scalar A.scalars.one).HasCoeffs A.dimension (bladeFamily 0) := by
  have h := Multivector.hasCoeffs_scalar (n := A.dimension) A.scalars.one
  rwa [hS.one, one_smul, ← hS.one] at h

/-- The scalar one changes nothing on either side, but that zeros are dropped. -/
theorem product_geometric_one (hS : A.scalars.IsRing) (hE : A.scalars.IsExact) {a : Multivector α}
    (ha : a.InRange A.dimension) :
    ∃ e, A.product .geometric (.scalar A.scalars.one) a = .ok e ∧
      A.product .geometric a (.scalar A.scalars.one) = .ok e ∧ e.InRange A.dimension ∧
      ∀ b v, (b, v) ∈ e.terms ↔ (b, v) ∈ a.terms ∧ v ≠ 0 := by
  have h0 := hE.isZero_zero
  have hn := A.dimension_le
  obtain ⟨e, he, re⟩ := product_spec hS h0 .geometric (hasCoeffs_one hS) ha.hasCoeffs
  obtain ⟨e', he', re'⟩ := product_spec hS h0 .geometric ha.hasCoeffs (hasCoeffs_one hS)
  have hleft : e.Represents A.scalars A.dimension a.coeff := re.congr fun _ hr =>
    convolve_one_left a.coeff hr
  have hright : e'.Represents A.scalars A.dimension a.coeff := re'.congr fun _ hr =>
    convolve_one_right a.coeff hr
  exact ⟨e, he, (hright.unique h0 hleft) ▸ he', (hleft.hasCoeffs hE hn).inRange, fun b v =>
    hleft.mem_terms_iff_mem hE hn ha⟩

end Ring

/-- **The geometric product is associative and unital.** The signs satisfy the cocycle identity; and
    in a commutative ring with an exact zero test both ways of bracketing three multivectors give
    one result, and multiplying by the scalar one keeps just the coefficients that are not zero. -/
theorem product_geometric_assoc_unital :
    (∀ (sig : Signature) (a b c : Nat),
      geometricSign sig a b * geometricSign sig (a ^^^ b) c
        = geometricSign sig b c * geometricSign sig a (b ^^^ c)) ∧
    ∀ {α : Type} [CommRing α] (A : Algebra α), A.scalars.IsRing → A.scalars.IsExact →
      (∀ a b c, A.validate a = .ok () → A.validate b = .ok () → A.validate c = .ok () →
        ∃ ab bc abc, A.product .geometric a b = .ok ab ∧ A.product .geometric b c = .ok bc ∧
          A.product .geometric ab c = .ok abc ∧ A.product .geometric a bc = .ok abc) ∧
      ∀ a, A.validate a = .ok () →
        ∃ e, A.product .geometric (.scalar A.scalars.one) a = .ok e ∧
          A.product .geometric a (.scalar A.scalars.one) = .ok e ∧
          (e.terms.map Prod.fst).Nodup ∧ ∀ b v, (b, v) ∈ e.terms ↔ (b, v) ∈ a.terms ∧ v ≠ 0 := by
  refine ⟨geometricSign_cocycle, fun A hS hE => ⟨fun a b c ha hb hc => ?_, fun a ha => ?_⟩⟩
  · exact product_geometric_bracket hS hE (validate_eq_ok_iff.mp ha) (validate_eq_ok_iff.mp hb)
      (validate_eq_ok_iff.mp hc)
  · obtain ⟨e, hleft, hright, hrange, hterms⟩ :=
      product_geometric_one hS hE (validate_eq_ok_iff.mp ha)
    exact ⟨e, hleft, hright, Multivector.nodup_terms A.signature.dimension_le hrange, hterms⟩

/-- Three integer multivectors in all forms but the scalar one, with a shared vector of each
    square. -/
theorem product_geometric_assoc_unital_mixed :
    ∃ ab bc abc : Multivector Int,
      (⟨.mixed, .integers, .auto⟩ : Algebra Int).product .geometric
        (.ofBlades [(1, 2), (6, 3)]) (.vector [1, -1, 4]) = .ok ab ∧
      (⟨.mixed, .integers, .auto⟩ : Algebra Int).product .geometric
        (.vector [1, -1, 4]) (.ofGrades [(1, 0, 5), (2, 2, 7)]) = .ok bc ∧
      (⟨.mixed, .integers, .auto⟩ : Algebra Int).product .geometric
        ab (.ofGrades [(1, 0, 5), (2, 2, 7)]) = .ok abc ∧
      (⟨.mixed, .integers, .auto⟩ : Algebra Int).product .geometric
        (.ofBlades [(1, 2), (6, 3)]) bc = .ok abc := by
  obtain ⟨hassoc, -⟩ := product_geometric_assoc_unital.2 ⟨.mixed, .integers, .auto⟩
    Scalars.isRing_integers Scalars.isExact_integers
  exact hassoc _ _ _ (by cbv) (by cbv) (by cbv)

end Algebra

end GeometricAlgebra

import GeometricAlgebra.Proofs.Frame
import GeometricAlgebra.Proofs.Outermorphism.Rounding

set_option autoImplicit false

/-! # Products over a frame with a tolerance

A product over a frame maps its operands, multiplies them and maps the result back. With a tolerance
coefficients are dropped in every step, and the steps that follow magnify what is missing: the
second factor what the first one lost, and the way back what the product lost. So the outer product
over a frame is off that of the coordinates by the tolerance times a factor that depends on the
sizes of the frame, of its inverse and of the operands (`outerError`).

No bound leaves the sizes out. The product of short frame vectors is dropped before the way back
could restore it (`product_outer_basisVector`). And a frame can be accepted whose inverse has lost
all its images: over it a vector times the scalar one is zero, whatever its coordinate
(`product_outer_of_no_images`). -/

namespace GeometricAlgebra

open Blade

/-! ## What a map does to the scalar -/

namespace Outermorphism

variable {α : Type} [CommRing α]

/-- Only the scalar of the scalar blade is mapped to it. -/
theorem runningExtension_apply_zero {S : Scalars α} {m n : Nat} {v : Nat → Nat → α}
    (hv : ∀ i, OfGrade m 1 (v i)) (x : Nat → α) :
    runningExtension S n v x 0 = x 0 := by
  rw [runningExtension,
    Finset.sum_eq_single_of_mem 0 (Finset.mem_range.mpr (Nat.two_pow_pos n)),
    BladeTree.runningImage_zero, bladeFamily, if_pos rfl, mul_one]
  intro b _ hb
  have hgrade := BladeTree.ofGrade_runningImage hv b (ofGrade_bladeFamily (Nat.two_pow_pos m))
    (S := S)
  rw [hgrade.eq_zero (r := 0), mul_zero]
  rintro ⟨-, hgrade⟩
  rw [grade_eq_zero_iff.mpr rfl, Nat.add_zero, eq_comm, grade_eq_zero_iff] at hgrade
  exact hb hgrade

/-- Without images of vectors only the scalar is left. -/
theorem runningExtension_of_no_images (S : Scalars α) (n : Nat) (x : Nat → α) :
    runningExtension S n 0 x = x 0 • bladeFamily 0 := by
  funext r
  rw [runningExtension,
    Finset.sum_eq_single_of_mem 0 (Finset.mem_range.mpr (Nat.two_pow_pos n)),
    BladeTree.runningImage_zero, Pi.smul_apply, smul_eq_mul]
  intro b _ hb
  have hzero : BladeTree.runningImage S 0 b (bladeFamily 0) = 0 := by
    induction b using topInduction with
    | zero => exact absurd rfl hb
    | top c u hu _ =>
        have hstep : (fun r => S.cut (outerProduct ((0 : Nat → Nat → α) c) (bladeFamily 0) r))
            = 0 := by
          funext r
          rw [Pi.zero_apply, outerProduct_zero_left, Pi.zero_apply, S.cut_zero]
        rw [BladeTree.runningImage_add_top hu, hstep, BladeTree.runningImage_of_zero]
  rw [hzero, Pi.zero_apply, mul_zero]

end Outermorphism

namespace Frame

/-! ## Errors -/

section Error

variable {α : Type} [Field α] [LinearOrder α] [IsStrictOrderedRing α]

/-- How far a product over a frame is off, in units of the tolerance, where the frame has the size
    `l` and its inverse the size `g`: the way back, what it makes of the error before it, and what
    is missing of the inverse. -/
def outerError (n : Nat) (ε l g s t : α) : α :=
  Outermorphism.mapError n g (l ^ n * s * (l ^ n * t) + ε * Outermorphism.mappedError n ε l s t)
    + g ^ n * Outermorphism.mappedError n ε l s t
    + n * (1 + ε * SquareMatrix.columnError n ε l g) ^ n * SquareMatrix.columnError n ε l g
      * (s * t)

variable {A : Algebra α} {ε : α} {f g : Outermorphism α} {a b : Multivector α} {x y : Nat → α}

omit [IsStrictOrderedRing α] in
/-- Operands are mapped and multiplied, and the product is mapped back. -/
theorem exists_product_outer (hS : A.scalars.IsTolerant ε) (hf : f.WellFormed)
    (hd : f.domain = A.dimension) (ht : f.target = A.dimension)
    (ha : a.HasCoeffs A.dimension x) (hb : b.HasCoeffs A.dimension y) :
    ∃ c, (⟨A, f, g⟩ : Frame α).product .outer a b = g.map A.scalars c ∧
      c.HasCoeffs A.dimension fun r =>
        A.scalars.cut (outerProduct (f.mapped A.scalars x) (f.mapped A.scalars y) r) := by
  obtain ⟨a', ha', hx'⟩ := Outermorphism.map_mapped hS hf hd ht ha
  obtain ⟨b', hb', hy'⟩ := Outermorphism.map_mapped hS hf hd ht hb
  obtain ⟨c, hc, rc⟩ := Algebra.product_spec hS.toIsRing hS.isZero_zero .outer hx' hy'
  rw [Algebra.signs_outer] at rc
  refine ⟨c, ?_, (rc.congr fun r hr => (outerProduct_eq_convolve _ _ hr).symm).hasCoeffs_cut
    hS.isZero_zero A.dimension_le⟩
  rw [product, toAlgebra, ha']
  change (do (⟨A, f, g⟩ : Frame α).ofAlgebra (← A.product .outer a' (← f.map A.scalars b))) = _
  rw [hb']
  change (do (⟨A, f, g⟩ : Frame α).ofAlgebra (← A.product .outer a' b')) = _
  rw [hc]
  rfl

/-- **An outer product over a frame is near that of the coordinates.** -/
theorem near_product_outer (hS : A.scalars.IsTolerant ε) (hf : f.WellFormed)
    (hd : f.domain = A.dimension) (ht : f.target = A.dimension)
    (hg : f.inverse A.scalars = .ok g) (ha : a.HasCoeffs A.dimension x)
    (hb : b.HasCoeffs A.dimension y) :
    ∃ m z, (⟨A, f, g⟩ : Frame α).product .outer a b = .ok m ∧ m.HasCoeffs A.dimension z ∧
      familySize A.dimension (z - outerProduct x y)
        ≤ ε * outerError A.dimension ε (f.size A.scalars A.dimension)
            (g.size A.scalars A.dimension) (familySize A.dimension x)
            (familySize A.dimension y) := by
  have hε := hS.nonneg
  obtain ⟨hwg, hgd, hgt, -⟩ := Outermorphism.exists_nearInverse hS hf hd ht hg
  obtain ⟨c, hproduct, hc⟩ := exists_product_outer (g := g) hS hf hd ht ha hb
  obtain ⟨m, hm, hz⟩ := Outermorphism.map_mapped hS hwg hgd hgt hc
  refine ⟨m, _, hproduct.trans hm, hz, ?_⟩
  have hl := zero_le_one.trans (f.one_le_size A.scalars A.dimension)
  have hl' := g.one_le_size A.scalars A.dimension
  -- the product of the mapped operands, what the way back makes of its error, and its own
  have hmapped := Outermorphism.near_outerProduct_mapped hS hf hd ht (le_refl (familySize _ x))
    (le_refl (familySize _ y))
  have hback := (hmapped.extension hl' fun i hi =>
    Outermorphism.familySize_family_le hS.toIsRing hwg hgd hgt hi).trans
      (Outermorphism.familySize_mapped_sub_le hS hwg hgd hgt hmapped.computed_le)
  -- what is missing of the inverse
  have hinverse := Outermorphism.familySize_extension_inverse_sub_le hS hf hd ht hg
    (outerProduct x y)
  have hsize := familySize_outerProduct_le A.dimension x y
  have hcolumn := SquareMatrix.columnError_nonneg hε hl (zero_le_one.trans hl') A.dimension
  refine ((familySize_sub_le _ _ _ _).trans (add_le_add hback.error_le (hinverse.trans
    (mul_le_mul_of_nonneg_left hsize (by positivity))))).trans_eq ?_
  rw [outerError]
  ring

end Error

/-! ## Products that are lost -/

section Lost

variable {α : Type} [Field α] [LinearOrder α] {A : Algebra α} {ε : α} {f g : Outermorphism α}
  {a b : Multivector α} {x y : Nat → α}

/-- Nothing that is left is mapped back. -/
theorem product_outer_eq_zero (hS : A.scalars.IsTolerant ε) (hf : f.WellFormed)
    (hd : f.domain = A.dimension) (ht : f.target = A.dimension) (hwg : g.WellFormed)
    (hgd : g.domain = A.dimension) (ha : a.HasCoeffs A.dimension x)
    (hb : b.HasCoeffs A.dimension y)
    (hzero : Outermorphism.runningExtension A.scalars g.domain g.family (fun r =>
      A.scalars.cut (outerProduct (f.mapped A.scalars x) (f.mapped A.scalars y) r)) = 0) :
    (⟨A, f, g⟩ : Frame α).product .outer a b = .ok .zero := by
  obtain ⟨c, hproduct, hc⟩ := exists_product_outer (g := g) hS hf hd ht ha hb
  obtain ⟨m, hm, rm⟩ := Outermorphism.map_spec_cut hS.toIsRing hS.isZero_zero hwg (hgd ▸ hc)
  rw [hzero] at rm
  rw [hproduct, hm, rm.unique hS.isZero_zero Multivector.represents_zero]

/-- **Frame vectors whose product is within the tolerance have none over the frame.** -/
theorem product_outer_basisVector (hS : A.scalars.IsTolerant ε) (hf : f.WellFormed)
    (hd : f.domain = A.dimension) (ht : f.target = A.dimension) (hwg : g.WellFormed)
    (hgd : g.domain = A.dimension) {i j : Nat} (hi : i < A.dimension) (hj : j < A.dimension)
    (hzero : ∀ r < 2 ^ A.dimension, A.scalars.isZero (outerProduct
      (fun s => A.scalars.cut (f.family i s)) (fun s => A.scalars.cut (f.family j s)) r) = true) :
    (⟨A, f, g⟩ : Frame α).product .outer (A.basisVector i) (A.basisVector j) = .ok .zero := by
  refine product_outer_eq_zero hS hf hd ht hwg hgd (Algebra.hasCoeffs_basisVector hS.toIsRing hi)
    (Algebra.hasCoeffs_basisVector hS.toIsRing hj) ?_
  rw [Outermorphism.mapped_ofVector _ f (hd ▸ hi), Outermorphism.mapped_ofVector _ f (hd ▸ hj)]
  funext r
  refine Finset.sum_eq_zero fun c hc => ?_
  have hcut := Scalars.cut_of_isZero (hzero c (by rwa [hgd, Finset.mem_range] at hc))
  exact mul_eq_zero_of_left hcut _

/-- **A product without a scalar is lost on a way back that has no images.** -/
theorem product_outer_of_no_images (hS : A.scalars.IsTolerant ε) (hf : f.WellFormed)
    (hd : f.domain = A.dimension) (ht : f.target = A.dimension) (hwg : g.WellFormed)
    (hgd : g.domain = A.dimension) (hg : g.family = 0) (ha : a.HasCoeffs A.dimension x)
    (hb : b.HasCoeffs A.dimension y) (hscalar : y 0 = 0) :
    (⟨A, f, g⟩ : Frame α).product .outer a b = .ok .zero := by
  refine product_outer_eq_zero hS hf hd ht hwg hgd ha hb ?_
  have hparts : parts 0 = {0} := by decide
  have hmapped : f.mapped A.scalars y 0 = 0 := by
    rw [Outermorphism.mapped, Outermorphism.runningExtension_apply_zero hf.ofGrade, hscalar,
      A.scalars.cut_zero]
  rw [hg, Outermorphism.runningExtension_of_no_images, outerProduct, hparts, Finset.sum_singleton,
    Nat.xor_zero, hmapped, mul_zero, A.scalars.cut_zero, zero_smul]

end Lost

section Scaling

variable {α : Type} [Field α] [LinearOrder α] [IsStrictOrderedRing α] {A : Algebra α} {ε : α}

omit [IsStrictOrderedRing α] in
/-- **A vector that is too long for the tolerance is accepted as a frame.** -/
theorem product_outer_scaling (hS : A.scalars.IsTolerant ε) (hdimension : A.dimension = 1) {x : α}
    (hx : A.scalars.isZero x = false) (hinv : A.scalars.isZero x⁻¹ = true) :
    ∃ F, ofVectors A [.vector [x]] = .ok F ∧ ∀ a b, A.validate a = .ok () →
      A.validate b = .ok () → b.coeff 0 = 0 → F.product .outer a b = .ok .zero := by
  have hn : 1 ≤ maxDimension := by decide
  have hrange : (Multivector.vector [x]).InRange 1 := Multivector.inRange_vector rfl
  have hok : Outermorphism.ofImages 1 1 [.vector [x]]
      = .ok ⟨1, [(Multivector.vector [x]).toTerms]⟩ := by
    refine Outermorphism.ofImages_eq_ok_iff.mpr ⟨hn, hn, rfl, ?_, rfl⟩
    simp only [List.mem_singleton, forall_eq]
    exact ⟨hrange, fun t ht => (Multivector.lt_of_mem_gradeTerms hn hrange ht).2⟩
  have hwf := Outermorphism.wellFormed_of_ofImages hok
  have hentry : (⟨1, [(Multivector.vector [x]).toTerms]⟩ : Outermorphism α).toMatrix
      A.scalars 1 1 0 0 = x := by
    rw [Outermorphism.toMatrix_apply (n := 1) (m := 1) hS.toIsRing rfl rfl]
    change Terms.coeff (Multivector.vector [x]).toTerms (ofVector 0) = x
    rw [Multivector.coeff_toTerms hn hrange, if_pos (by decide),
      Multivector.coeff_vector (Nat.zero_le _)]
    rfl
  have hg := Outermorphism.inverse_scaling hS rfl rfl hentry hx hinv
  have hnone : (⟨1, [∅]⟩ : Outermorphism α).family = 0 := by
    funext i r
    cases i <;> exact Terms.coeff_empty r
  refine ⟨_, ofVectors_eq_ok_iff.mpr ⟨_, _, by rwa [hdimension], hg, rfl⟩, fun a b ha hb h0 => ?_⟩
  exact product_outer_of_no_images hS hwf hdimension.symm hdimension.symm
    (Outermorphism.wellFormed_of_inverse hg) hdimension.symm hnone
    (Algebra.validate_eq_ok_iff.mp ha).hasCoeffs (Algebra.validate_eq_ok_iff.mp hb).hasCoeffs h0

end Scaling

/-! ## The law of outer products over a frame -/

/-- **How far an outer product over a frame is one.** Over every accepted frame it is off that of
    the coordinates by no more than the tolerance times a factor that the sizes of the frame, of its
    inverse and of the operands make up (`outerError`). Without such a factor no bound holds. Two
    frame vectors whose outer product in orthonormal coordinates is within the tolerance have none
    over the frame. And a vector so long that the inverse of its length is within the tolerance is
    accepted as a frame, over which every product is zero whose second factor has no scalar. -/
theorem product_outer_near {ε : Rat} {A : Algebra Rat}
    (hS : Coefficient.ofTolerance ε = .ok A.scalars) :
    (∀ vectors F, ofVectors A vectors = .ok F →
      (∀ a b, A.validate a = .ok () → A.validate b = .ok () →
        ∃ m, F.product .outer a b = .ok m ∧ m.InRange A.dimension ∧ ∀ r < 2 ^ A.dimension,
          |m.coeff r - outerProduct a.coeff b.coeff r|
            ≤ ε * outerError A.dimension ε (F.toOrthonormal.size A.scalars A.dimension)
                (F.ofOrthonormal.size A.scalars A.dimension) (familySize A.dimension a.coeff)
                (familySize A.dimension b.coeff)) ∧
      ∀ i < A.dimension, ∀ j < A.dimension,
        (∀ r < 2 ^ A.dimension,
          |outerProduct (fun s => A.scalars.cut (F.toOrthonormal.family i s))
            (fun s => A.scalars.cut (F.toOrthonormal.family j s)) r| ≤ ε) →
        F.product .outer (A.basisVector i) (A.basisVector j) = .ok .zero) ∧
    (A.dimension = 1 → ∀ x, ε < |x| → |x⁻¹| ≤ ε →
      ∃ F, ofVectors A [.vector [x]] = .ok F ∧ ∀ a b, A.validate a = .ok () →
        A.validate b = .ok () → b.coeff 0 = 0 → F.product .outer a b = .ok .zero) := by
  obtain ⟨hε, hscalars⟩ := Coefficient.ofTolerance_eq_ok_iff.mp hS
  have hT : A.scalars.IsTolerant ε := hscalars ▸ Coefficient.isTolerant_approximate hε
  have hzero : ∀ x, A.scalars.isZero x = true ↔ |x| ≤ ε := fun x => by
    rw [hscalars, Coefficient.isZero_approximate]
  refine ⟨fun vectors F hF => ?_, fun hdimension x hx hinv => ?_⟩
  · obtain ⟨f, g, hf, hg, rfl⟩ := ofVectors_eq_ok_iff.mp hF
    obtain ⟨hd, ht⟩ := Outermorphism.domain_target_of_ofImages hf
    have hwf := Outermorphism.wellFormed_of_ofImages hf
    obtain ⟨hwg, hgd, -, -⟩ := Outermorphism.exists_nearInverse hT hwf hd ht hg
    refine ⟨fun a b ha hb => ?_, fun i hi j hj hsmall => ?_⟩
    · obtain ⟨m, z, hm, hz, herror⟩ := near_product_outer hT hwf hd ht hg
        (Algebra.validate_eq_ok_iff.mp ha).hasCoeffs (Algebra.validate_eq_ok_iff.mp hb).hasCoeffs
      refine ⟨m, hm, hz.inRange, fun r hr => ?_⟩
      rw [hz.coeff_eq r hr, ← Pi.sub_apply]
      exact (abs_le_familySize _ hr).trans herror
    · exact product_outer_basisVector hT hwf hd ht hwg hgd hi hj fun r hr =>
        (hzero _).mpr (hsmall r hr)
  · refine product_outer_scaling hT hdimension ?_ ((hzero _).mpr hinv)
    rw [← Bool.not_eq_true, hzero]
    exact not_le.mpr hx

/-- The Euclidean algebra of `n` vectors, with the tolerance `1 / 4`. -/
def coarse (n : Nat) (hn : n ≤ maxDimension) : Algebra Rat :=
  ⟨⟨n, 0, 0, hn, by simp [Nat.one_shiftLeft], by simp [Nat.one_shiftLeft], rfl⟩,
    Coefficient.approximate (1 / 4), .auto⟩

/-- Halves both vectors of a plane. -/
def halving : Outermorphism Rat :=
  ⟨2, [Multivector.vector [1 / 2, 0], .vector [0, 1 / 2]].map Multivector.toTerms⟩

/-- Two halved vectors lose their product, and a vector of length `8` even its product with one. -/
theorem product_outer_near_quarter :
    let A := coarse 2 (by decide)
    let B := coarse 1 (by decide)
    (∃ F, ofVectors A [.vector [1 / 2, 0], .vector [0, 1 / 2]] = .ok F ∧
      F.product .outer (A.basisVector 0) (A.basisVector 1) = .ok .zero ∧
      outerProduct (A.basisVector 0).coeff (A.basisVector 1).coeff 3 = 1 ∧
      |0 - outerProduct (A.basisVector 0).coeff (A.basisVector 1).coeff 3|
        ≤ 1 / 4 * outerError 2 (1 / 4) (F.toOrthonormal.size A.scalars 2)
          (F.ofOrthonormal.size A.scalars 2) (familySize 2 (A.basisVector 0).coeff)
          (familySize 2 (A.basisVector 1).coeff)) ∧
    ∃ F, ofVectors B [.vector [8]] = .ok F ∧
      F.product .outer (.scalar 1) (B.basisVector 0) = .ok .zero ∧
      outerProduct (Multivector.scalar (1 : Rat)).coeff (B.basisVector 0).coeff 1 = 1 := by
  intro A B
  have hS : ∀ n hn, Coefficient.ofTolerance (1 / 4 : Rat) = .ok (coarse n hn).scalars := fun _ _ =>
    Coefficient.ofTolerance_eq_ok_iff.mpr ⟨by norm_num, rfl⟩
  refine ⟨?_, ?_⟩
  · have hf : Outermorphism.ofImages 2 2 [.vector [1 / 2, 0], .vector [0, 1 / 2]]
        = .ok halving := by cbv
    have hmatrix : halving.matrix (Coefficient.approximate (1 / 4)) = [[1 / 2, 0], [0, 1 / 2]] := by
      cbv
    have hrows : SquareMatrix.inverseOfRows (Coefficient.approximate (1 / 4 : Rat))
        [[1 / 2, 0], [0, 1 / 2]] = .ok [[2, 0], [0, 2]] := by
      decide +kernel
    have hg : ∃ g, halving.inverse A.scalars = .ok g := by
      refine ⟨⟨2, [Multivector.ofBlades [(1, 2)], .ofBlades [(2, 2)]].map Multivector.toTerms⟩, ?_⟩
      change halving.inverse (Coefficient.approximate (1 / 4)) = _
      rw [Outermorphism.inverse, hmatrix, hrows]
      cbv
    obtain ⟨g, hg⟩ := hg
    have hF : ofVectors A [.vector [1 / 2, 0], .vector [0, 1 / 2]] = .ok ⟨A, halving, g⟩ :=
      ofVectors_eq_ok_iff.mpr ⟨_, _, hf, hg, rfl⟩
    obtain ⟨hnear, hlost⟩ := (product_outer_near (hS 2 (by decide))).1 _ _ hF
    have hsmall : ∀ r < 4, |outerProduct (fun s => A.scalars.cut (halving.family 0 s))
        (fun s => A.scalars.cut (halving.family 1 s)) r| ≤ 1 / 4 := by decide +kernel
    have hzero := hlost 0 (by decide) 1 (by decide) hsmall
    obtain ⟨m, hm, -, herror⟩ := hnear (A.basisVector 0) (A.basisVector 1) (by cbv) (by cbv)
    obtain rfl : m = .zero := Except.ok.inj (hm.symm.trans hzero)
    exact ⟨_, hF, hzero, by decide +kernel, herror 3 (by decide)⟩
  · obtain ⟨F, hF, hlost⟩ := (product_outer_near (hS 1 (by decide))).2 rfl 8 (by norm_num)
      (by norm_num [abs_of_pos])
    exact ⟨F, hF, hlost _ _ (by cbv) (by cbv) (by cbv), by decide +kernel⟩

end Frame

end GeometricAlgebra

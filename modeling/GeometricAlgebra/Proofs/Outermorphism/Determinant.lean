import GeometricAlgebra.Proofs.Algebra.Minors
import GeometricAlgebra.Proofs.Outermorphism.Laws

set_option autoImplicit false

/-! # Determinants of outermorphisms

The coefficients of the image of a blade are minors of the matrix of the map. The largest of them is
the determinant of a square matrix, so the determinant of an outermorphism is that of its matrix,
what it multiplies the pseudoscalar by, and multiplicative under composition. -/

namespace GeometricAlgebra

open Blade

variable {α : Type} [CommRing α]

namespace Outermorphism

/-- The part of the matrix of a map with the rows of one blade and the columns of another. -/
def submatrix (S : Scalars α) (f : Outermorphism α) (rows columns : Nat) :
    Matrix (Fin (grade columns)) (Fin (grade columns)) α :=
  Matrix.of fun i j => f.entry S (vectorAt rows i) (vectorAt columns j)

variable {S : Scalars α} {f g : Outermorphism α}

/-! ## Minors -/

theorem submatrix_eq_minor (hS : S.IsRing) {r a : Nat} (hr : r < 2 ^ f.target)
    (ha : a < 2 ^ f.domain) (hgrade : grade r = grade a) :
    f.submatrix S r a = minor f.family r a (grade a) := by
  ext i j
  rw [submatrix, minor, Matrix.of_apply, Matrix.of_apply]
  refine entry_eq hS (lt_two_pow_iff.mp hr _ (vectorAt_mem ?_))
    (lt_two_pow_iff.mp ha _ (vectorAt_mem j.isLt))
  exact i.isLt.trans_eq hgrade.symm

theorem mapBlade_minors (hS : S.IsRing) (hE : S.IsExact) (hf : f.WellFormed) {a : Nat}
    (ha : a < 2 ^ f.domain) :
    ∃ m, f.mapBlade S a = .ok m ∧ (m.terms.map Prod.fst).Nodup ∧
      ∀ r v, (r, v) ∈ m.terms ↔
        r < 2 ^ f.target ∧ grade r = grade a ∧ v = (f.submatrix S r a).det ∧ v ≠ 0 := by
  obtain ⟨m, hm, rm⟩ := mapBlade_spec hS hE hf ha
  refine ⟨m, hm, Multivector.nodup_terms hf.target_le (rm.hasCoeffs hE hf.target_le).inRange,
    fun r v => ?_⟩
  rw [rm.mem_terms_iff hE hf.target_le]
  have hdet : r < 2 ^ f.target → grade r = grade a →
      (f.submatrix S r a).det = bladeImage f.family a r := by
    intro hr hgrade
    rw [submatrix_eq_minor hS hr ha hgrade, bladeImage_eq_det hf.ofGrade a _ r rfl hgrade]
  constructor
  · rintro ⟨hr, hv, hne⟩
    have hgrade := (ofGrade_bladeImage hf.ofGrade a r (hv ▸ hne)).2
    exact ⟨hr, hgrade, hv.trans (hdet hr hgrade).symm, hne⟩
  · rintro ⟨hr, hgrade, hv, hne⟩
    exact ⟨hr, hv.trans (hdet hr hgrade), hne⟩

/-! ## The determinant -/

theorem bladeImage_firstVectors (hS : S.IsRing) (hf : f.WellFormed) {n : Nat} (hd : f.domain = n)
    (ht : f.target = n) :
    bladeImage f.family (firstVectors n) (firstVectors n) = (f.toMatrix S n n).det := by
  have hn : n ≤ maxDimension := hd ▸ hf.domain_le
  rw [bladeImage_eq_det hf.ofGrade _ n _ (grade_firstVectors hn) (grade_firstVectors hn)]
  congr 1
  ext i j
  rw [toMatrix_apply hS ht hd, minor, Matrix.of_apply, vectorAt_firstVectors hn i.isLt,
    vectorAt_firstVectors hn j.isLt]

theorem determinant_eq_det (hS : S.IsRing) (hE : S.IsExact) (hf : f.WellFormed) {n : Nat}
    (hd : f.domain = n) (ht : f.target = n) :
    f.determinant S = .ok (f.toMatrix S n n).det := by
  have hsquare : f.requireSquare = .ok () := by
    rw [requireSquare, if_neg (not_not.mpr (hd.trans ht.symm))]
  rw [determinant, hsquare, ← bladeImage_firstVectors hS hf hd ht, ← coeff_bladeTerms hS hE, ← hd,
    Terms.coeff, ← hS.zero]
  rfl

/-- The pseudoscalar is multiplied by the determinant. -/
theorem map_pseudoscalar {A : Algebra α} (hS : A.scalars.IsRing) (hE : A.scalars.IsExact)
    (hf : f.WellFormed) (h : f.Between A A) :
    ∃ m, f.map A.scalars A.pseudoscalar = .ok m ∧
      A.scale A.pseudoscalar (f.toMatrix A.scalars A.dimension A.dimension).det = .ok m := by
  have hn := A.dimension_le
  have hps : A.pseudoscalar.HasCoeffs A.dimension
      (A.scalars.one • bladeFamily (firstVectors A.dimension)) :=
    Multivector.hasCoeffs_ofBlade hn (firstVectors_lt hn) A.scalars.one
  rw [hS.one, one_smul] at hps
  obtain ⟨m, hm, rm⟩ := h.map_spec hS hE hf hps
  obtain ⟨m', hm', rm'⟩ := Algebra.scale_spec hS hps
    (f.toMatrix A.scalars A.dimension A.dimension).det
  rw [extension_bladeFamily _ (firstVectors_lt hn)] at rm
  have heq : m = m' := by
    refine (rm.congr fun r hr => ?_).unique hE.isZero_zero rm'
    rw [Pi.smul_apply, bladeFamily, smul_eq_mul, mul_ite, mul_one, mul_zero]
    split
    · next hr' => rw [hr', bladeImage_firstVectors hS hf h.domain_eq h.target_eq]
    · next hr' =>
        -- the image of the pseudoscalar has its grade, so no other blade occurs
        refine (ofGrade_bladeImage hf.ofGrade _).eq_zero fun hgrade => hr' ?_
        exact eq_firstVectors hn hr (hgrade.2.trans (grade_firstVectors hn))
  exact ⟨m, hm, heq ▸ hm'⟩

/-- **Coefficients of images of blades are minors.** The image of a blade has terms for blades of
    its grade alone, with the determinants of the submatrices, where these are not zero. So the
    determinant of a map is that of its matrix, the pseudoscalar is mapped to its multiple, and
    determinants multiply under composition. -/
theorem mapBlade_eq_minors (hS : S.IsRing) (hE : S.IsExact) (hf : f.Built) :
    (∀ a < 2 ^ f.domain, ∃ m, f.mapBlade S a = .ok m ∧ (m.terms.map Prod.fst).Nodup ∧
      ∀ r v, (r, v) ∈ m.terms ↔
        r < 2 ^ f.target ∧ grade r = grade a ∧ v = (f.submatrix S r a).det ∧ v ≠ 0) ∧
    ∀ n, f.domain = n → f.target = n →
      f.determinant S = .ok (f.toMatrix S n n).det ∧
      (∀ A : Algebra α, A.scalars = S → A.dimension = n →
        ∃ d m, f.determinant S = .ok d ∧ f.map S A.pseudoscalar = .ok m ∧
          A.scale A.pseudoscalar d = .ok m) ∧
      ∀ g : Outermorphism α, g.Built → g.domain = n → g.target = n →
        ∃ h d e, f.comp S g = .ok h ∧ f.determinant S = .ok d ∧ g.determinant S = .ok e ∧
          h.determinant S = .ok (d * e) := by
  have hwf := hf.wellFormed
  refine ⟨fun a ha => mapBlade_minors hS hE hwf ha, fun n hd ht => ?_⟩
  have hdet := determinant_eq_det hS hE hwf hd ht
  refine ⟨hdet, ?_, fun g hg hgd hgt => ?_⟩
  · rintro A rfl hA
    subst hA
    obtain ⟨m, hm, hscale⟩ := map_pseudoscalar hS hE hwf ⟨hd, ht, rfl⟩
    exact ⟨_, m, hdet, hm, hscale⟩
  · have hwg := hg.wellFormed
    obtain ⟨h, hh, hwh, hht, hhd, hfamily⟩ := comp_spec hS hE hwf hwg (hgt.trans hd.symm)
    have hmatrix := toMatrix_comp hS hwg ht hd hgt hgd (hht.trans ht) (hhd.trans hgd) hfamily
    refine ⟨h, _, _, hh, hdet, determinant_eq_det hS hE hwg hgd hgt, ?_⟩
    rw [← Matrix.det_mul, ← hmatrix]
    exact determinant_eq_det hS hE hwh (hhd.trans hgd) (hht.trans ht)

/-- The images of `e₀ e₁` and of the pseudoscalar under the sample map, and its determinant. -/
theorem mapBlade_eq_minors_sample :
    (∃ m, sample.mapBlade .integers 3 = .ok m ∧
      (3, 6) ∈ m.terms ∧ (5, -2) ∈ m.terms ∧ (6, -1) ∈ m.terms) ∧
    sample.determinant .integers = .ok (-1) ∧
    (∃ d m, sample.determinant .integers = .ok d ∧
      sample.map .integers (⟨.mixed, .integers, .auto⟩ : Algebra Int).pseudoscalar = .ok m ∧
      (⟨.mixed, .integers, .auto⟩ : Algebra Int).scale
        (⟨.mixed, .integers, .auto⟩ : Algebra Int).pseudoscalar d = .ok m) ∧
    ∃ h d e, sample.comp .integers sample = .ok h ∧ sample.determinant .integers = .ok d ∧
      sample.determinant .integers = .ok e ∧ h.determinant .integers = .ok (d * e) := by
  obtain ⟨hminors, hsquare⟩ :=
    mapBlade_eq_minors Scalars.isRing_integers Scalars.isExact_integers built_sample
  obtain ⟨m, hm, -, hterms⟩ := hminors 3 (by decide)
  obtain ⟨hdet, hpseudoscalar, hcomp⟩ := hsquare 3 rfl rfl
  refine ⟨⟨m, hm, ?_⟩, ?_, hpseudoscalar _ rfl rfl, hcomp sample built_sample rfl rfl⟩
  · simp only [hterms, submatrix, entry, matrix_sample]
    decide +kernel
  · rw [hdet]
    simp only [toMatrix, entry, matrix_sample]
    decide +kernel

end Outermorphism

end GeometricAlgebra

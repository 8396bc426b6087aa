import GeometricAlgebra.Frame
import GeometricAlgebra.Proofs.Algebra.Geometric
import GeometricAlgebra.Proofs.Algebra.Metric
import GeometricAlgebra.Proofs.Outermorphism.Inverse

set_option autoImplicit false

/-! # Frames

The maps of an accepted frame undo each other on all blades, not only on vectors (`Valid`). So a
product over a frame is the product of the algebra in other coordinates: it is associative where
that one is, the outer product is the same in all coordinates, and the frame vectors multiply as
their scalar products say, which are the matrix `gram`. -/

namespace GeometricAlgebra

open Blade

variable {α : Type}

/-- A basis vector of the algebra. -/
def Algebra.basisVector (A : Algebra α) (i : Nat) : Multivector α :=
  .ofBlade (ofVector i) A.scalars.one

theorem Algebra.hasCoeffs_basisVector [CommRing α] {A : Algebra α} (hS : A.scalars.IsRing) {i : Nat}
    (hi : i < A.dimension) :
    (A.basisVector i).HasCoeffs A.dimension (bladeFamily (ofVector i)) := by
  have h := Multivector.hasCoeffs_ofBlade A.dimension_le (ofVector_lt_iff.mpr hi) A.scalars.one
  rwa [hS.one, one_smul, ← hS.one] at h

namespace Frame

variable [CommRing α] {F : Frame α}

/-! ## Families over a frame -/

/-- Orthonormal coordinates, from those over the frame. -/
def toFamily (F : Frame α) : (Nat → α) →ₗ[α] (Nat → α) :=
  extension F.algebra.dimension F.toOrthonormal.family

/-- Coordinates over the frame, from orthonormal ones. -/
def ofFamily (F : Frame α) : (Nat → α) →ₗ[α] (Nat → α) :=
  extension F.algebra.dimension F.ofOrthonormal.family

theorem toFamily_ofVector (F : Frame α) {i : Nat} (hi : i < F.algebra.dimension) :
    F.toFamily (bladeFamily (ofVector i)) = F.toOrthonormal.family i := by
  rw [toFamily, extension_bladeFamily _ (ofVector_lt_iff.mpr hi), bladeImage_ofVector]

theorem ofFamily_smul_scalar (F : Frame α) (v : α) :
    F.ofFamily (v • bladeFamily 0) = v • bladeFamily 0 := by
  rw [map_smul, ofFamily, extension_bladeFamily _ (Nat.two_pow_pos _), bladeImage_zero]

/-- Both maps go from the algebra to itself, and each undoes the other. -/
structure Valid (F : Frame α) : Prop where
  isRing : F.algebra.scalars.IsRing
  isExact : F.algebra.scalars.IsExact
  to_wellFormed : F.toOrthonormal.WellFormed
  of_wellFormed : F.ofOrthonormal.WellFormed
  to_between : F.toOrthonormal.Between F.algebra F.algebra
  of_between : F.ofOrthonormal.Between F.algebra F.algebra
  of_to : ∀ x, ∀ r < 2 ^ F.algebra.dimension, F.ofFamily (F.toFamily x) r = x r
  to_of : ∀ x, ∀ r < 2 ^ F.algebra.dimension, F.toFamily (F.ofFamily x) r = x r

namespace Valid

variable (hF : F.Valid) {a b : Multivector α} {x y : Nat → α}

include hF

theorem ofGrade_family (i : Nat) : OfGrade F.algebra.dimension 1 (F.toOrthonormal.family i) :=
  hF.to_between.target_eq ▸ hF.to_wellFormed.ofGrade i

/-! ## What the operations yield -/

theorem yields_toAlgebra (ha : a.HasCoeffs F.algebra.dimension x) :
    F.algebra.Yields (F.toAlgebra a) (F.toFamily x) :=
  hF.to_between.map_spec hF.isRing hF.isExact hF.to_wellFormed ha

theorem yields_ofAlgebra (ha : a.HasCoeffs F.algebra.dimension x) :
    F.algebra.Yields (F.ofAlgebra a) (F.ofFamily x) :=
  hF.of_between.map_spec hF.isRing hF.isExact hF.of_wellFormed ha

/-- A product over the frame is one of orthonormal coordinates. -/
theorem yields_product (k : Product) (ha : a.HasCoeffs F.algebra.dimension x)
    (hb : b.HasCoeffs F.algebra.dimension y) :
    F.algebra.Yields (F.product k a b) (F.ofFamily
      (convolve F.algebra.dimension (F.algebra.signs k) (F.toFamily x) (F.toFamily y))) :=
  (hF.yields_toAlgebra ha).bind hF.isExact fun _ ha' =>
    (hF.yields_toAlgebra hb).bind hF.isExact fun _ hb' =>
      (Algebra.yields_product hF.isRing hF.isExact k ha' hb').bind hF.isExact fun _ hm =>
        hF.yields_ofAlgebra hm

/-- Going to orthonormal coordinates and back keeps the coefficients that are not zero. -/
theorem ofAlgebra_toAlgebra (ha : a.InRange F.algebra.dimension) :
    ∃ m, (do F.ofAlgebra (← F.toAlgebra a)) = .ok m ∧ (m.terms.map Prod.fst).Nodup ∧
      ∀ b v, (b, v) ∈ m.terms ↔ (b, v) ∈ a.terms ∧ v ≠ 0 := by
  have h := (hF.yields_toAlgebra ha.hasCoeffs).bind hF.isExact fun _ hm => hF.yields_ofAlgebra hm
  exact (h.congr (hF.of_to a.coeff)).mem_terms hF.isExact ha

theorem toAlgebra_ofAlgebra (ha : a.InRange F.algebra.dimension) :
    ∃ m, (do F.toAlgebra (← F.ofAlgebra a)) = .ok m ∧ (m.terms.map Prod.fst).Nodup ∧
      ∀ b v, (b, v) ∈ m.terms ↔ (b, v) ∈ a.terms ∧ v ≠ 0 := by
  have h := (hF.yields_ofAlgebra ha.hasCoeffs).bind hF.isExact fun _ hm => hF.yields_toAlgebra hm
  exact (h.congr (hF.to_of a.coeff)).mem_terms hF.isExact ha

/-! ## Outer products -/

/-- Both maps preserve outer products, so these need no change of coordinates. -/
theorem ofFamily_outerProduct (x y : Nat → α) {r : Nat} (hr : r < 2 ^ F.algebra.dimension) :
    F.ofFamily (outerProduct (F.toFamily x) (F.toFamily y)) r = outerProduct x y r := by
  rw [ofFamily, extension_outerProduct hF.of_wellFormed.ofGrade, ← ofFamily,
    outerProduct_eq_convolve _ _ hr, outerProduct_eq_convolve _ _ hr,
    convolve_congr _ (hF.of_to x) (hF.of_to y)]

theorem product_outer (ha : a.InRange F.algebra.dimension) (hb : b.InRange F.algebra.dimension) :
    ∃ m, F.product .outer a b = .ok m ∧ F.algebra.product .outer a b = .ok m := by
  have hproduct := hF.yields_product .outer ha.hasCoeffs hb.hasCoeffs
  rw [Algebra.signs_outer] at hproduct
  have hfamily : F.ofFamily (convolve F.algebra.dimension outerSign (F.toFamily a.coeff)
      (F.toFamily b.coeff)) = F.ofFamily (outerProduct (F.toFamily a.coeff) (F.toFamily b.coeff)) :=
    extension_congr _ fun r hr => (outerProduct_eq_convolve _ _ hr).symm
  rw [hfamily] at hproduct
  exact (hproduct.congr fun r hr => hF.ofFamily_outerProduct _ _ hr).eq_ok hF.isExact
    (Algebra.outer_spec hF.isRing hF.isExact ha.hasCoeffs hb.hasCoeffs)

/-! ## Geometric products -/

/-- Within a product the way back to the frame and the way from it cancel. -/
theorem convolve_toFamily_ofFamily_left (σ : Nat → Nat → α) (x y : Nat → α) :
    convolve F.algebra.dimension σ (F.toFamily (F.ofFamily x)) y
      = convolve F.algebra.dimension σ x y :=
  funext (convolve_congr σ (hF.to_of x) fun _ _ => rfl)

theorem convolve_toFamily_ofFamily_right (σ : Nat → Nat → α) (x y : Nat → α) :
    convolve F.algebra.dimension σ x (F.toFamily (F.ofFamily y))
      = convolve F.algebra.dimension σ x y :=
  funext (convolve_congr σ (fun _ _ => rfl) (hF.to_of y))

theorem product_geometric_assoc {c : Multivector α} (ha : a.InRange F.algebra.dimension)
    (hb : b.InRange F.algebra.dimension) (hc : c.InRange F.algebra.dimension) :
    ∃ m, (do F.product .geometric (← F.product .geometric a b) c) = .ok m ∧
      (do F.product .geometric a (← F.product .geometric b c)) = .ok m := by
  have hleft := (hF.yields_product .geometric ha.hasCoeffs hb.hasCoeffs).bind hF.isExact
    fun _ hab => hF.yields_product .geometric hab hc.hasCoeffs
  have hright := (hF.yields_product .geometric hb.hasCoeffs hc.hasCoeffs).bind hF.isExact
    fun _ hbc => hF.yields_product .geometric ha.hasCoeffs hbc
  rw [hF.convolve_toFamily_ofFamily_left, funext (convolve_assoc
    Algebra.signs_geometric_cocycle _ _ _)] at hleft
  rw [hF.convolve_toFamily_ofFamily_right] at hright
  exact hleft.eq_ok hF.isExact hright

end Valid

/-! ## The metric -/

/-- The scalar products of the frame vectors. -/
def gram (F : Frame α) : Matrix (Fin F.algebra.dimension) (Fin F.algebra.dimension) α :=
  Matrix.of fun i j => convolve F.algebra.dimension (F.algebra.signs .scalar)
    (F.toOrthonormal.family i) (F.toOrthonormal.family j) 0

theorem gram_isSymm (F : Frame α) : F.gram.IsSymm := by
  ext i j
  rw [Matrix.transpose_apply, gram, Matrix.of_apply, Matrix.of_apply, Algebra.convolve_scalar_comm]

namespace Valid

variable (hF : F.Valid)

include hF

theorem metric_eq : F.metric = .ok (Outermorphism.rowsOf F.gram) := by
  obtain ⟨vectors, hvectors, hfamily⟩ := mapM_eq_ok (l := List.range F.algebra.dimension)
    fun i hi => Outermorphism.image_spec hF.to_wellFormed
      ((List.mem_range.mp hi).trans_eq hF.to_between.domain_eq.symm)
  rw [hF.to_between.target_eq] at hfamily
  rw [metric, hvectors, gram, Outermorphism.rowsOf_of _ _ fun i j =>
    convolve F.algebra.dimension (F.algebra.signs .scalar) (F.toOrthonormal.family i)
      (F.toOrthonormal.family j) 0]
  exact mapM_eq_ok_of_forall₂ hfamily fun i v hv => mapM_eq_ok_of_forall₂ hfamily fun j w hw =>
    Algebra.scalarProduct_eq hF.isRing hF.isExact hv hw

theorem scalarProduct_basisVector (i j : Fin F.algebra.dimension) :
    F.scalarProduct (F.algebra.basisVector i) (F.algebra.basisVector j) = .ok (F.gram i j) := by
  have h := hF.yields_product .scalar (Algebra.hasCoeffs_basisVector hF.isRing i.isLt)
    (Algebra.hasCoeffs_basisVector hF.isRing j.isLt)
  rw [F.toFamily_ofVector i.isLt, F.toFamily_ofVector j.isLt, Algebra.convolve_scalar,
    F.ofFamily_smul_scalar, ← Algebra.convolve_scalar] at h
  exact h.scalarPart hF.isRing hF.isExact

/-- **Frame vectors anticommute up to twice their scalar product.** -/
theorem add_product_basisVector (i j : Fin F.algebra.dimension) :
    (do
        let product ← F.product .geometric (F.algebra.basisVector i) (F.algebra.basisVector j)
        F.algebra.add product
          (← F.product .geometric (F.algebra.basisVector j) (F.algebra.basisVector i)))
      = .ok (if F.algebra.scalars.isZero (2 * F.gram i j) then .zero
          else .scalar (2 * F.gram i j)) := by
  have product := fun i j : Fin F.algebra.dimension =>
    hF.yields_product .geometric (Algebra.hasCoeffs_basisVector hF.isRing i.isLt)
      (Algebra.hasCoeffs_basisVector hF.isRing j.isLt)
  have h := (product i j).add hF.isRing hF.isExact (product j i)
  rw [← map_add, F.toFamily_ofVector i.isLt, F.toFamily_ofVector j.isLt,
    Algebra.convolve_geometric_add_swap (hF.ofGrade_family i) (hF.ofGrade_family j),
    F.ofFamily_smul_scalar] at h
  exact h.eq_scalar hF.isExact

/-! ## The basis as a frame -/

/-- Over the frame of the basis vectors every product is that of the algebra. -/
theorem product_eq_of_family (h : ∀ i < F.algebra.dimension,
      F.toOrthonormal.family i = bladeFamily (ofVector i)) (k : Product) {a b : Multivector α}
    (ha : a.InRange F.algebra.dimension) (hb : b.InRange F.algebra.dimension) :
    ∃ m, F.product k a b = .ok m ∧ F.algebra.product k a b = .ok m := by
  have hto : ∀ x, ∀ r < 2 ^ F.algebra.dimension, F.toFamily x r = x r := fun x r hr => by
    rw [toFamily, extension_eq_ite h, if_pos hr]
  have hof : ∀ x, ∀ r < 2 ^ F.algebra.dimension, F.ofFamily x r = x r := fun x r hr => by
    rw [← hF.of_to x r hr]
    exact congrFun (extension_congr _ fun b hb => (hto x b hb).symm) r
  have hproduct := (hF.yields_product k ha.hasCoeffs hb.hasCoeffs).congr (hof _)
  rw [funext (convolve_congr _ (hto a.coeff) (hto b.coeff))] at hproduct
  exact hproduct.eq_ok hF.isExact
    (Algebra.yields_product hF.isRing hF.isExact k ha.hasCoeffs hb.hasCoeffs)

end Valid

/-! ## Accepted frames -/

section Field

variable {α : Type} [Field α] {A : Algebra α} {f g : Outermorphism α}

omit [Field α] in
theorem ofMap_eq_ok_iff {F : Frame α} :
    ofMap A f = .ok F ↔ f.domain = A.dimension ∧ f.target = A.dimension ∧
      ∃ g, f.inverse A.scalars = .ok g ∧ F = ⟨A, f, g⟩ := by
  rw [ofMap]
  split
  · next hd => exact iff_of_false (fun h => by cases h) fun h => hd h.1
  · next hd =>
      rw [and_iff_right (not_not.mp hd)]
      split
      · next ht => exact iff_of_false (fun h => by cases h) fun h => ht h.1
      · next ht =>
          rw [and_iff_right (not_not.mp ht), bind_eq_ok_iff]
          refine exists_congr fun g => and_congr_right fun _ => ⟨fun h => ?_, fun h => ?_⟩
          · cases h
            rfl
          · rw [h]
            rfl

omit [Field α] in
theorem ofVectors_eq_ok_iff {vectors : List (Multivector α)} {F : Frame α} :
    ofVectors A vectors = .ok F ↔
      ∃ f g, Outermorphism.ofImages A.dimension A.dimension vectors = .ok f ∧
        f.inverse A.scalars = .ok g ∧ F = ⟨A, f, g⟩ := by
  rw [ofVectors, bind_eq_ok_iff]
  constructor
  · rintro ⟨f, hf, h⟩
    obtain ⟨-, -, g, hg, hF⟩ := ofMap_eq_ok_iff.mp h
    exact ⟨f, g, hf, hg, hF⟩
  · rintro ⟨f, g, hf, hg, hF⟩
    obtain ⟨hd, ht⟩ := Outermorphism.domain_target_of_ofImages hf
    exact ⟨f, hf, ofMap_eq_ok_iff.mpr ⟨hd, ht, g, hg, hF⟩⟩

/-- A map that has an inverse gives a frame. -/
theorem valid_of_inverse (hS : A.scalars.IsField) (hE : A.scalars.IsExact) (hf : f.WellFormed)
    (hd : f.domain = A.dimension) (ht : f.target = A.dimension)
    (hg : f.inverse A.scalars = .ok g) : (⟨A, f, g⟩ : Frame α).Valid := by
  rcases Outermorphism.inverse_spec hS hE hf hd ht with
    ⟨g', hg', hwg, hgd, hgt, hproduct⟩ | ⟨e, he, -, -⟩
  · obtain rfl : g = g' := Except.ok.inj (hg.symm.trans hg')
    have hR := hS.toIsRing
    exact {
      isRing := hR
      isExact := hE
      to_wellFormed := hf
      of_wellFormed := hwg
      to_between := ⟨hd, ht, rfl⟩
      of_between := ⟨hgd, hgt, rfl⟩
      of_to := fun x _ hr =>
        Outermorphism.extension_extension_eq_self hR hE hwg hf hgd hgt hd ht hproduct x hr
      to_of := fun x _ hr => Outermorphism.extension_extension_eq_self hR hE hf hwg hd ht hgd hgt
        (mul_eq_one_comm.mp hproduct) x hr }
  · exact absurd (hg.symm.trans he) (by simp)

theorem valid_of_ofVectors (hS : A.scalars.IsField) (hE : A.scalars.IsExact)
    {vectors : List (Multivector α)} {F : Frame α} (h : ofVectors A vectors = .ok F) :
    F.algebra = A ∧ F.Valid := by
  obtain ⟨f, g, hf, hg, rfl⟩ := ofVectors_eq_ok_iff.mp h
  obtain ⟨hd, ht⟩ := Outermorphism.domain_target_of_ofImages hf
  exact ⟨rfl, valid_of_inverse hS hE (Outermorphism.wellFormed_of_ofImages hf) hd ht hg⟩

/-- The basis vectors are accepted as images, and are their own images. -/
theorem ofImages_basisVector (hS : A.scalars.IsRing) :
    ∃ f, Outermorphism.ofImages A.dimension A.dimension
        ((List.range A.dimension).map A.basisVector) = .ok f ∧
      ∀ i < A.dimension, f.family i = bladeFamily (ofVector i) := by
  have hn := A.dimension_le
  have hcoeffs : ∀ i < A.dimension,
      (A.basisVector i).HasCoeffs A.dimension (bladeFamily (ofVector i)) := fun i hi =>
    Algebra.hasCoeffs_basisVector hS hi
  have hvalid : ∀ image ∈ (List.range A.dimension).map A.basisVector,
      image.InRange A.dimension ∧ ∀ t ∈ image.terms, grade t.1 = 1 := by
    intro image himage
    obtain ⟨i, hi, rfl⟩ := List.mem_map.mp himage
    have hi := List.mem_range.mp hi
    refine ⟨(hcoeffs i hi).inRange, fun t ht => ?_⟩
    rw [Multivector.grade_of_mem_ofBlade hn (ofVector_lt_iff.mpr hi) ht, grade_ofVector]
  have hok := Outermorphism.ofImages_eq_ok_iff.mpr ⟨hn, hn, by simp, hvalid, rfl⟩
  refine ⟨_, hok, fun i hi => Outermorphism.family_of_ofImages hok (by simpa using hi) ?_ ?_⟩
  · simpa using hcoeffs i hi
  · exact fun r hr => if_neg fun h => absurd (h ▸ ofVector_lt_iff.mpr hi) (not_lt.mpr hr)

/-- They have an inverse, so they are accepted as a frame. -/
theorem ofVectors_basisVector (hS : A.scalars.IsField) (hE : A.scalars.IsExact) :
    ∃ E, ofVectors A ((List.range A.dimension).map A.basisVector) = .ok E ∧
      ∀ i < A.dimension, E.toOrthonormal.family i = bladeFamily (ofVector i) := by
  obtain ⟨f, hf, hfamily⟩ := ofImages_basisVector hS.toIsRing
  obtain ⟨hd, ht⟩ := Outermorphism.domain_target_of_ofImages hf
  have hwf := Outermorphism.wellFormed_of_ofImages hf
  rcases Outermorphism.inverse_spec hS hE hwf hd ht with ⟨g, hg, -⟩ | ⟨e, -, -, hdet⟩
  · exact ⟨⟨A, f, g⟩, ofVectors_eq_ok_iff.mpr ⟨f, g, hf, hg, rfl⟩, hfamily⟩
  · rw [(Outermorphism.toMatrix_eq_one_iff hS.toIsRing hwf hd ht).mpr hfamily, Matrix.det_one]
      at hdet
    exact absurd hdet one_ne_zero

/-- **Over a frame products are those of the Clifford algebra of its metric.** Going to orthonormal
    coordinates and back, or the other way round, keeps the coefficients that are not zero. The
    outer product needs no coordinates, the geometric product is associative, and two frame vectors
    multiplied in both orders give twice their scalar product, an entry of the symmetric matrix that
    is the metric. Over the frame of the basis vectors every product is that of the algebra. -/
theorem product_clifford (hS : A.scalars.IsField) (hE : A.scalars.IsExact) :
    (∀ vectors F, Frame.ofVectors A vectors = .ok F →
      (∀ a, A.validate a = .ok () →
        (∃ m, (do F.ofAlgebra (← F.toAlgebra a)) = .ok m ∧ (m.terms.map Prod.fst).Nodup ∧
          ∀ b v, (b, v) ∈ m.terms ↔ (b, v) ∈ a.terms ∧ v ≠ 0) ∧
        ∃ m, (do F.toAlgebra (← F.ofAlgebra a)) = .ok m ∧ (m.terms.map Prod.fst).Nodup ∧
          ∀ b v, (b, v) ∈ m.terms ↔ (b, v) ∈ a.terms ∧ v ≠ 0) ∧
      (∀ a b, A.validate a = .ok () → A.validate b = .ok () →
        ∃ m, F.product .outer a b = .ok m ∧ A.product .outer a b = .ok m) ∧
      (∀ a b c, A.validate a = .ok () → A.validate b = .ok () → A.validate c = .ok () →
        ∃ m, (do F.product .geometric (← F.product .geometric a b) c) = .ok m ∧
          (do F.product .geometric a (← F.product .geometric b c)) = .ok m) ∧
      ∃ G : Matrix (Fin A.dimension) (Fin A.dimension) α,
        F.metric = .ok (Outermorphism.rowsOf G) ∧ G.IsSymm ∧ ∀ i j : Fin A.dimension,
          F.scalarProduct (A.basisVector i) (A.basisVector j) = .ok (G i j) ∧
          (do
            let product ← F.product .geometric (A.basisVector i) (A.basisVector j)
            A.add product (← F.product .geometric (A.basisVector j) (A.basisVector i)))
            = .ok (if A.scalars.isZero (2 * G i j) then .zero else .scalar (2 * G i j))) ∧
    ∃ E, Frame.ofVectors A ((List.range A.dimension).map A.basisVector) = .ok E ∧
      ∀ k a b, A.validate a = .ok () → A.validate b = .ok () →
        ∃ m, E.product k a b = .ok m ∧ A.product k a b = .ok m := by
  refine ⟨fun vectors F h => ?_, ?_⟩
  · obtain ⟨rfl, hF⟩ := valid_of_ofVectors hS hE h
    simp only [Algebra.validate_eq_ok_iff]
    exact ⟨fun a ha => ⟨hF.ofAlgebra_toAlgebra ha, hF.toAlgebra_ofAlgebra ha⟩,
      fun a b ha hb => hF.product_outer ha hb,
      fun a b c ha hb hc => hF.product_geometric_assoc ha hb hc,
      F.gram, hF.metric_eq, F.gram_isSymm,
      fun i j => ⟨hF.scalarProduct_basisVector i j, hF.add_product_basisVector i j⟩⟩
  · obtain ⟨E, hE', hfamily⟩ := ofVectors_basisVector hS hE
    obtain ⟨rfl, hF⟩ := valid_of_ofVectors hS hE hE'
    simp only [Algebra.validate_eq_ok_iff]
    exact ⟨E, hE', fun k a b ha hb => hF.product_eq_of_family hfamily k ha hb⟩

end Field

/-- The frame `2 e₁`, `e₀ + 3 e₁`, `e₂ - e₀` of an algebra with a vector of each square, and the
    frame of its basis vectors. -/
theorem product_clifford_mixed :
    let A : Algebra Rat := ⟨.mixed, .fractions, .auto⟩
    let vectors := [.ofBlades [(2, 2)], .ofBlades [(1, 1), (2, 3)], .vector [-1, 0, 1]]
    let a : Multivector Rat := .ofBlades [(0, 3), (1, 2), (6, 5)]
    let b : Multivector Rat := .vector [1, -1, 4]
    (∃ F, Frame.ofVectors A vectors = .ok F ∧
      (∃ m, (do F.ofAlgebra (← F.toAlgebra a)) = .ok m ∧ (6, 5) ∈ m.terms) ∧
      (∃ m, F.product .outer a b = .ok m ∧ A.product .outer a b = .ok m) ∧
      (∃ m, (do F.product .geometric (← F.product .geometric a b) a) = .ok m ∧
        (do F.product .geometric a (← F.product .geometric b a)) = .ok m) ∧
      (∃ G : Matrix (Fin 3) (Fin 3) Rat, F.metric = .ok (Outermorphism.rowsOf G) ∧ G.IsSymm ∧
        G 0 1 = -6) ∧
      F.scalarProduct (A.basisVector 0) (A.basisVector 1) = .ok (-6) ∧
      (do
        let product ← F.product .geometric (A.basisVector 0) (A.basisVector 1)
        A.add product (← F.product .geometric (A.basisVector 1) (A.basisVector 0)))
        = .ok (.scalar (-12))) ∧
    ∃ E, Frame.ofVectors A [A.basisVector 0, A.basisVector 1, A.basisVector 2] = .ok E ∧
      ∃ m, E.product .left a b = .ok m ∧ A.product .left a b = .ok m := by
  intro A vectors a b
  obtain ⟨hframe, E, hE, hbasis⟩ := product_clifford (A := A) Scalars.isField_fractions
    Scalars.isExact_fractions
  have ha : A.validate a = .ok () := by cbv
  have hb : A.validate b = .ok () := by cbv
  have hentry : (do (← Frame.ofVectors A vectors).scalarProduct (A.basisVector 0) (A.basisVector 1))
      = .ok (-6) := by cbv
  obtain ⟨F, hF, hentry⟩ := bind_eq_ok_iff.mp hentry
  obtain ⟨htrip, houter, hassoc, G, hG, hsymm, hvectors⟩ := hframe vectors F hF
  obtain ⟨m, hm, -, hterms⟩ := (htrip a ha).1
  obtain ⟨hscalar, hsum⟩ := hvectors (0 : Fin 3) (1 : Fin 3)
  have hG01 : G (0 : Fin 3) (1 : Fin 3) = -6 := Except.ok.inj (hscalar.symm.trans hentry)
  refine ⟨⟨F, hF, ⟨m, hm, ?_⟩, houter a b ha hb, hassoc a b a ha hb ha, ⟨G, hG, hsymm, hG01⟩,
    hentry, ?_⟩, E, hE, hbasis .left a b ha hb⟩
  · rw [hterms]
    decide +kernel
  · refine hsum.trans ?_
    rw [hG01]
    cbv

end Frame

end GeometricAlgebra

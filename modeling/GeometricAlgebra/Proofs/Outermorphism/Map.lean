import GeometricAlgebra.Proofs.Algebra.Families
import GeometricAlgebra.Proofs.BladeTree.Images
import GeometricAlgebra.Proofs.Outermorphism.Built

set_option autoImplicit false

/-! # What outermorphisms map to

An outermorphism is given by the images of the basis vectors. All three ways of applying it, to a
blade (`mapBlade_spec`), to a vector (`mapVector_spec`) and to any multivector (`map_spec`), give
the linear extension of these images to blades. So the walk over the tree of blades gives the sum of
the images of the blades, and mapping is linear. -/

namespace GeometricAlgebra

open Blade

variable {α : Type}

/-- Adds up the images of the blades of a multivector, each multiplied by its coefficient. -/
def Algebra.sumOfBlades (B : Algebra α) (f : Outermorphism α) (mv : Multivector α) :
    Except Error (Multivector α) :=
  mv.terms.foldlM (fun sum t => do
    B.add sum (← B.scale (← f.mapBlade B.scalars t.1) t.2)) .zero

namespace Outermorphism

variable [CommRing α] {S : Scalars α} {f : Outermorphism α}

/-! ## Images of vectors -/

/-- The coefficients of the images of the basis vectors. -/
def family (f : Outermorphism α) : Nat → Nat → α := BladeTree.imageFamily f.images

theorem mem_image_of_family_ne_zero {i r : Nat} (h : f.family i r ≠ 0) :
    ∃ image ∈ f.images, r ∈ image := by
  rw [family, BladeTree.imageFamily, List.getD_eq_getElem?_getD] at h
  cases himage : f.images[i]? with
  | none =>
      rw [himage, Option.getD_none, Terms.coeff_empty] at h
      exact absurd rfl h
  | some image =>
      rw [himage, Option.getD_some] at h
      refine ⟨image, List.mem_of_getElem? himage, ?_⟩
      by_contra hmem
      exact h (Std.ExtTreeMap.getD_eq_fallback hmem)

/-- The coefficients of an accepted image, beyond the target as well. -/
theorem family_of_ofImages {domain target i : Nat} {images : List (Multivector α)}
    (h : Outermorphism.ofImages domain target images = .ok f) (hi : i < images.length) {x : Nat → α}
    (hx : images[i].HasCoeffs target x) (hout : ∀ r, 2 ^ target ≤ r → x r = 0) :
    f.family i = x := by
  obtain ⟨-, htarget, -, -, rfl⟩ := ofImages_eq_ok_iff.mp h
  funext r
  rw [family, BladeTree.imageFamily, List.getD_eq_getElem _ _ (by rwa [List.length_map]),
    List.getElem_map, Multivector.coeff_toTerms htarget hx.inRange]
  split
  · next hr => exact hx.coeff_eq r hr
  · next hr => exact (hout r (not_lt.mp hr)).symm

theorem WellFormed.ofGrade (hf : f.WellFormed) (i : Nat) : OfGrade f.target 1 (f.family i) := by
  intro r hr
  obtain ⟨image, himage, hmem⟩ := mem_image_of_family_ne_zero hr
  exact hf.vectors image himage r hmem

/-- The images of vectors have no blade outside the target, so no image of a sum has one. -/
theorem WellFormed.extension_eq_ite (hf : f.WellFormed) (x : Nat → α) (r : Nat) :
    extension f.domain f.family x r
      = if r < 2 ^ f.target then extension f.domain f.family x r else 0 := by
  split
  · rfl
  · next hr => exact extension_eq_zero hf.ofGrade x (not_lt.mp hr)

/-- The images of the terms add up to the image of the family of coefficients. -/
theorem WellFormed.sum_terms (hf : f.WellFormed) {mv : Multivector α} {x : Nat → α}
    (h : mv.HasCoeffs f.domain x) (r : Nat) :
    (mv.terms.map fun t => t.2 * bladeImage f.family t.1 r).sum
      = extension f.domain f.family x r := by
  rw [Multivector.sum_terms hf.domain_le h.inRange (fun b v => v * bladeImage f.family b r)
    fun b => zero_mul _, ← extension_apply, extension_congr f.family h.coeff_eq]

theorem WellFormed.validate_eq_ok (hf : f.WellFormed) {mv : Multivector α} {x : Nat → α}
    (h : mv.HasCoeffs f.domain x) : mv.validate f.domain = .ok () :=
  (Multivector.validate_eq_ok_iff _ _).mpr ⟨hf.domain_le, h.inRange⟩

/-! ## Images with dropped coefficients -/

/-- What the walk makes of a family: the images of blades that it computes, multiplied by their
    coefficients. -/
def runningExtension (S : Scalars α) (n : Nat) (v : Nat → Nat → α) (x : Nat → α) (r : Nat) : α :=
  ∑ b ∈ Finset.range (2 ^ n), x b * BladeTree.runningImage S v b (bladeFamily 0) r

theorem runningExtension_eq (hE : S.IsExact) (n : Nat) (v : Nat → Nat → α) (x : Nat → α) :
    runningExtension S n v x = extension n v x := by
  funext r
  simp only [runningExtension, BladeTree.runningImage_eq hE, outerProduct_blade_zero_right,
    extension_apply]

theorem runningExtension_bladeFamily {S : Scalars α} {n b : Nat} {v : Nat → Nat → α}
    (hb : b < 2 ^ n) :
    runningExtension S n v (bladeFamily b) = BladeTree.runningImage S v b (bladeFamily 0) := by
  funext r
  rw [runningExtension, Finset.sum_eq_single_of_mem b (Finset.mem_range.mpr hb), bladeFamily,
    if_pos rfl, one_mul]
  intro c _ hc
  rw [bladeFamily, if_neg hc, zero_mul]

/-- A map keeps of what the walk computes the coefficients that do not count as zero. -/
theorem map_spec_cut (hS : S.IsRing) (h0 : S.isZero 0 = true) (hf : f.WellFormed)
    {mv : Multivector α} {x : Nat → α} (h : mv.HasCoeffs f.domain x) :
    ∃ m, f.map S mv = .ok m ∧
      m.Represents S f.target (runningExtension S f.domain f.family x) := by
  refine ⟨Terms.compact S (BladeTree.sumOfImages S f.images mv).1, ?_,
    Multivector.represents_compact fun r => ?_⟩
  · rw [map, hf.validate_eq_ok h]
    rfl
  · rw [BladeTree.coeff_sumOfImages_cut hS h0 f.images hf.domain_le h.inRange, ← family,
      Multivector.sum_terms hf.domain_le h.inRange
        (fun b v => v * BladeTree.runningImage S f.family b (bladeFamily 0) r) fun b => zero_mul _]
    split
    · exact Finset.sum_congr rfl fun b hb => by rw [h.coeff_eq b (Finset.mem_range.mp hb)]
    · next hr =>
        -- no image has a blade outside the target
        refine Finset.sum_eq_zero fun b _ => ?_
        have hzero := (BladeTree.ofGrade_runningImage hf.ofGrade b
          (ofGrade_bladeFamily (Nat.two_pow_pos _)) (S := S)).eq_zero fun hlt => hr hlt.1
        rw [hzero, mul_zero]

/-! ## Images of blades and multivectors -/

section Spec

variable (hS : S.IsRing) (hE : S.IsExact)

include hS hE

theorem coeff_bladeTerms (f : Outermorphism α) (b : Nat) :
    Terms.coeff (f.bladeTerms S b) = bladeImage f.family b := by
  rw [bladeTerms, Terms.coeff_foldl_wedge hS hE (fun i => f.images.getD i ∅), Terms.coeff_one hS]
  rfl

theorem mapBlade_spec (hf : f.WellFormed) {b : Nat} (hb : b < 2 ^ f.domain) :
    ∃ m, f.mapBlade S b = .ok m ∧ m.Represents S f.target (bladeImage f.family b) := by
  refine ⟨Terms.compact S (f.bladeTerms S b), ?_, Multivector.represents_compact fun r => ?_⟩
  · rw [← Nat.one_shiftLeft] at hb
    rw [mapBlade, Blade.validate, Multivector.validateDimension_eq_ok_iff.mpr hf.domain_le]
    simp only [hb]
    rfl
  · rw [coeff_bladeTerms hS hE]
    split
    · rfl
    · next hr => exact (ofGrade_bladeImage hf.ofGrade b).eq_zero fun h => hr h.1

theorem map_spec (hf : f.WellFormed) {mv : Multivector α} {x : Nat → α}
    (h : mv.HasCoeffs f.domain x) :
    ∃ m, f.map S mv = .ok m ∧ m.Represents S f.target (extension f.domain f.family x) := by
  simpa only [runningExtension_eq hE] using map_spec_cut hS hE.isZero_zero hf h

omit hE in
/-- A vector is mapped as a sum of multiples of images of basis vectors. -/
theorem mapVector_spec (hf : f.WellFormed) {v : Multivector α} {x : Nat → α}
    (h : v.HasCoeffs f.domain x) (hv : ∀ t ∈ v.terms, grade t.1 = 1) :
    ∃ m, f.mapVector S v = .ok m ∧ m.Represents S f.target (extension f.domain f.family x) := by
  have hok : ∀ t ∈ v.terms, ∀ sum, f.addImage S sum t
      = .ok (Terms.addScaled S sum (f.images.getD t.1.log2 ∅).toList t.2) := by
    intro t ht sum
    rw [addImage, if_neg (not_not.mpr (hv t ht))]
  have hadd : ∀ r, ∀ t ∈ v.terms, ∀ sum,
      Terms.coeff (Terms.addScaled S sum (f.images.getD t.1.log2 ∅).toList t.2) r
        = Terms.coeff sum r + t.2 * bladeImage f.family t.1 r := by
    intro r t ht sum
    -- a blade of grade one is a basis vector, and its only bit says which
    obtain ⟨i, hi⟩ := eq_ofVector_of_grade_eq_one (hv t ht)
    have hlog : (ofVector i).log2 = i := by rw [ofVector, Nat.one_shiftLeft, Nat.log2_two_pow]
    rw [hi, hlog, bladeImage_ofVector, Terms.coeff_addScaled hS,
      Terms.sum_toList_ite_eq _ r (g := (· * t.2)) (zero_mul _), mul_comm t.2]
    rfl
  refine ⟨Terms.compact S (v.terms.foldl
      (fun sum t => Terms.addScaled S sum (f.images.getD t.1.log2 ∅).toList t.2) ∅), ?_,
    Multivector.represents_compact fun r => ?_⟩
  · rw [mapVector, hf.validate_eq_ok h]
    refine bind_eq_ok_iff.mpr ⟨(), rfl, ?_⟩
    rw [foldlM_eq_ok hok]
    rfl
  · rw [← hf.extension_eq_ite, ← hf.sum_terms h, Terms.coeff_foldl (hadd r), Terms.coeff_empty,
      zero_add]

end Spec

/-! ## Sums of images -/

/-- The map goes from one algebra to another one over the same scalars. -/
structure Between (f : Outermorphism α) (A B : Algebra α) : Prop where
  domain_eq : f.domain = A.dimension
  target_eq : f.target = B.dimension
  scalars_eq : B.scalars = A.scalars

section Algebras

variable {A B : Algebra α} {mv : Multivector α} {x : Nat → α} (hS : A.scalars.IsRing)
  (hE : A.scalars.IsExact) (hf : f.WellFormed) (h : f.Between A B)

include hS hE hf h

theorem Between.map_spec (hmv : mv.HasCoeffs A.dimension x) :
    ∃ m, f.map A.scalars mv = .ok m ∧
      m.Represents B.scalars B.dimension (extension A.dimension f.family x) := by
  rw [← h.domain_eq] at hmv ⊢
  rw [← h.target_eq, h.scalars_eq]
  exact Outermorphism.map_spec hS hE hf hmv

/-- The images of blades are added up with the operations of the target. -/
theorem Between.foldlM_addBlade (l : List (Nat × α)) (hl : ∀ t ∈ l, t.1 < 2 ^ A.dimension)
    {sum : Multivector α} (hsum : sum.Represents B.scalars B.dimension x) :
    ∃ m, l.foldlM (fun sum t => do
        B.add sum (← B.scale (← f.mapBlade B.scalars t.1) t.2)) sum = .ok m ∧
      m.Represents B.scalars B.dimension
        (x + (l.map fun t => t.2 • bladeImage f.family t.1).sum) := by
  have hSB : B.scalars.IsRing := h.scalars_eq ▸ hS
  have hEB : B.scalars.IsExact := h.scalars_eq ▸ hE
  have hn := B.dimension_le
  induction l generalizing sum x with
  | nil => exact ⟨sum, rfl, by simpa using hsum⟩
  | cons t l ih =>
      have ht : t.1 < 2 ^ f.domain := h.domain_eq ▸ hl t List.mem_cons_self
      obtain ⟨image, himage, hi⟩ := mapBlade_spec hSB hEB hf ht
      rw [h.target_eq] at hi
      obtain ⟨multiple, hmultiple, hm⟩ := Algebra.scale_spec hSB (hi.hasCoeffs hEB hn) t.2
      obtain ⟨next, hnext, hx⟩ :=
        Algebra.add_spec hSB (hsum.hasCoeffs hEB hn) (hm.hasCoeffs hEB hn)
      have hstep : (do B.add sum (← B.scale (← f.mapBlade B.scalars t.1) t.2)) = .ok next :=
        bind_eq_ok_iff.mpr ⟨image, himage, bind_eq_ok_iff.mpr ⟨multiple, hmultiple, hnext⟩⟩
      obtain ⟨m, hfold, hm⟩ := ih (fun u hu => hl u (List.mem_cons_of_mem t hu)) hx
      refine ⟨m, ?_, ?_⟩
      · rw [List.foldlM_cons]
        exact bind_eq_ok_iff.mpr ⟨next, hstep, hfold⟩
      · rwa [List.map_cons, List.sum_cons, ← add_assoc]

theorem Between.sumOfBlades_spec (hmv : mv.HasCoeffs A.dimension x) :
    ∃ m, B.sumOfBlades f mv = .ok m ∧
      m.Represents B.scalars B.dimension (extension A.dimension f.family x) := by
  obtain ⟨m, hm, hr⟩ := h.foldlM_addBlade hS hE hf mv.terms
    (fun t ht => Multivector.lt_of_mem_terms A.dimension_le hmv.inRange ht)
    Multivector.represents_zero
  have hsum : (mv.terms.map fun t => t.2 • bladeImage f.family t.1).sum
      = extension A.dimension f.family x := by
    rw [Multivector.sum_terms A.dimension_le hmv.inRange (fun b v => v • bladeImage f.family b)
      fun b => zero_smul α _, ← extension_eq_sum, extension_congr f.family hmv.coeff_eq]
  rw [hsum, zero_add] at hr
  exact ⟨m, hm, hr⟩

/-- Mapping a multivector, adding up the images of its blades and, for a vector, adding up images of
    basis vectors give the same. -/
theorem Between.map_eq (hmv : A.validate mv = .ok ()) :
    ∃ m, f.map A.scalars mv = .ok m ∧ B.sumOfBlades f mv = .ok m ∧
      ((∀ t ∈ mv.terms, grade t.1 = 1) → f.mapVector A.scalars mv = .ok m) := by
  have hcoeffs := (Algebra.validate_eq_ok_iff.mp hmv).hasCoeffs
  have hEB : B.scalars.IsExact := h.scalars_eq ▸ hE
  obtain ⟨m, hm, rm⟩ := h.map_spec hS hE hf hcoeffs
  obtain ⟨m', hm', rm'⟩ := h.sumOfBlades_spec hS hE hf hcoeffs
  obtain rfl := rm.unique hEB.isZero_zero rm'
  refine ⟨m, hm, hm', fun hvector => ?_⟩
  rw [← h.domain_eq] at hcoeffs rm
  rw [← h.target_eq, h.scalars_eq] at rm
  obtain ⟨w, hw, hv⟩ := mapVector_spec hS hf hcoeffs hvector
  obtain rfl := rm.unique hE.isZero_zero hv
  exact hw

theorem Between.map_linear {a b : Multivector α} {y : Nat → α} (ha : a.HasCoeffs A.dimension x)
    (hb : b.HasCoeffs A.dimension y) (s : α) :
    ∃ m, (do f.map A.scalars (← A.add a (← A.scale b s))) = .ok m ∧
      (do B.add (← f.map A.scalars a) (← B.scale (← f.map A.scalars b) s)) = .ok m := by
  have hSB : B.scalars.IsRing := h.scalars_eq ▸ hS
  have hEB : B.scalars.IsExact := h.scalars_eq ▸ hE
  have hn := B.dimension_le
  obtain ⟨bs, hbs, rbs⟩ := Algebra.scale_spec hS hb s
  obtain ⟨sum, hsum, rsum⟩ := Algebra.add_spec hS ha (rbs.hasCoeffs hE A.dimension_le)
  obtain ⟨m, hm, rm⟩ := h.map_spec hS hE hf (rsum.hasCoeffs hE A.dimension_le)
  obtain ⟨fa, hfa, rfa⟩ := h.map_spec hS hE hf ha
  obtain ⟨fb, hfb, rfb⟩ := h.map_spec hS hE hf hb
  obtain ⟨fbs, hfbs, rfbs⟩ := Algebra.scale_spec hSB (rfb.hasCoeffs hEB hn) s
  obtain ⟨m', hm', rm'⟩ := Algebra.add_spec hSB (rfa.hasCoeffs hEB hn) (rfbs.hasCoeffs hEB hn)
  rw [map_add, map_smul] at rm
  obtain rfl := rm.unique hEB.isZero_zero rm'
  refine ⟨m, ?_, ?_⟩
  · exact bind_eq_ok_iff.mpr ⟨bs, hbs, bind_eq_ok_iff.mpr ⟨sum, hsum, hm⟩⟩
  · exact bind_eq_ok_iff.mpr ⟨fa, hfa, bind_eq_ok_iff.mpr ⟨fb, hfb,
      bind_eq_ok_iff.mpr ⟨fbs, hfbs, hm'⟩⟩⟩

end Algebras

/-! ## The walk computes the map -/

/-- Adds up the images of the terms as the plain loop over the vectors of a blade computes them. -/
def sumOfBladeTerms (S : Scalars α) (f : Outermorphism α) (mv : Multivector α) : Terms α :=
  mv.terms.foldl (fun sum t => Terms.addScaled S sum (f.bladeTerms S t.1).toList t.2) ∅

theorem coeff_sumOfBladeTerms (hS : S.IsRing) (hE : S.IsExact) (f : Outermorphism α)
    (mv : Multivector α) (r : Nat) :
    Terms.coeff (f.sumOfBladeTerms S mv) r
      = (mv.terms.map fun t => t.2 * bladeImage f.family t.1 r).sum := by
  have hadd : ∀ t ∈ mv.terms, ∀ sum,
      Terms.coeff (Terms.addScaled S sum (f.bladeTerms S t.1).toList t.2) r
        = Terms.coeff sum r + t.2 * bladeImage f.family t.1 r := by
    intro t _ sum
    rw [Terms.coeff_addScaled hS, Terms.sum_toList_ite_eq _ r (g := (· * t.2)) (zero_mul _),
      coeff_bladeTerms hS hE, mul_comm t.2]
  rw [sumOfBladeTerms, Terms.coeff_foldl hadd, Terms.coeff_empty, zero_add]

section Walk

variable {mv : Multivector α} (hS : S.IsRing) (hE : S.IsExact) (hmv : mv.validate f.domain = .ok ())

include hS hE hmv

theorem compact_sumOfImages :
    Terms.compact S (BladeTree.sumOfImages S f.images mv).1
      = Terms.compact S (f.sumOfBladeTerms S mv) := by
  obtain ⟨hn, hrange⟩ := (Multivector.validate_eq_ok_iff _ _).mp hmv
  refine Terms.compact_congr hE.isZero_zero fun r => ?_
  rw [BladeTree.coeff_sumOfImages hS hE f.images hn hrange, coeff_sumOfBladeTerms hS hE]
  rfl

/-- Where all blades of the images fit an algebra, so do those of the sum. -/
theorem mem_terms_sumOfImages
    (himages : ∀ image ∈ f.images, ∀ b ∈ image, b < 2 ^ maxDimension) :
    ((Terms.compact S (BladeTree.sumOfImages S f.images mv).1).terms.map Prod.fst).Nodup ∧
      ∀ r v, (r, v) ∈ (Terms.compact S (BladeTree.sumOfImages S f.images mv).1).terms ↔
        v = (mv.terms.map fun t => t.2 * bladeImage f.family t.1 r).sum ∧ v ≠ 0 := by
  obtain ⟨hn, hrange⟩ := (Multivector.validate_eq_ok_iff _ _).mp hmv
  have hcoeff := BladeTree.coeff_sumOfImages hS hE f.images hn hrange
  have hfamily : ∀ i r, 2 ^ maxDimension ≤ r → f.family i r = 0 := by
    intro i r hr
    by_contra hne
    obtain ⟨image, himage, hmem⟩ := mem_image_of_family_ne_zero hne
    exact absurd (himages image himage r hmem) (not_lt.mpr hr)
  have hout : ∀ r, 2 ^ maxDimension ≤ r →
      Terms.coeff (BladeTree.sumOfImages S f.images mv).1 r = 0 := by
    intro r hr
    rw [hcoeff]
    refine List.sum_eq_zero fun v hv => ?_
    obtain ⟨t, -, rfl⟩ := List.mem_map.mp hv
    exact mul_eq_zero_of_right _ (bladeImage_eq_zero hfamily t.1 hr)
  obtain ⟨htotal, hterms⟩ := Terms.compact_spec hE.isZero_zero (le_refl maxDimension) hout
  refine ⟨Multivector.nodup_terms (le_refl maxDimension) htotal, fun r v => ?_⟩
  rw [hterms, hcoeff, hE.isZero_eq_false_iff]
  rfl

end Walk

/-- **The walk adds up the images of the blades.** With images of any grades it gives, for every
    blade, the sum over the terms of the coefficient times that of the outer product of the images,
    and so the same as the plain loop. An outermorphism therefore maps a multivector to the sum of
    the images of its blades, maps a vector as a vector, and is linear. -/
theorem map_eq_sumOfBlades (hS : S.IsRing) (hE : S.IsExact) (f : Outermorphism α) :
    (∀ mv, mv.validate f.domain = .ok () →
      Terms.compact S (BladeTree.sumOfImages S f.images mv).1
          = Terms.compact S (f.sumOfBladeTerms S mv) ∧
        ((∀ image ∈ f.images, ∀ b ∈ image, b < 2 ^ maxDimension) →
          ((Terms.compact S (BladeTree.sumOfImages S f.images mv).1).terms.map Prod.fst).Nodup ∧
          ∀ r v, (r, v) ∈ (Terms.compact S (BladeTree.sumOfImages S f.images mv).1).terms ↔
            v = (mv.terms.map fun t => t.2 * bladeImage f.family t.1 r).sum ∧ v ≠ 0)) ∧
    (f.Built → ∀ A B : Algebra α, A.scalars = S → f.Between A B →
      (∀ mv, A.validate mv = .ok () → ∃ m, f.map S mv = .ok m ∧ B.sumOfBlades f mv = .ok m ∧
        ((∀ t ∈ mv.terms, grade t.1 = 1) → f.mapVector S mv = .ok m)) ∧
      ∀ a b s, A.validate a = .ok () → A.validate b = .ok () →
        ∃ m, (do f.map S (← A.add a (← A.scale b s))) = .ok m ∧
          (do B.add (← f.map S a) (← B.scale (← f.map S b) s)) = .ok m) := by
  refine ⟨fun mv hmv => ⟨compact_sumOfImages hS hE hmv, mem_terms_sumOfImages hS hE hmv⟩, ?_⟩
  rintro hbuilt A B rfl h
  have hf := hbuilt.wellFormed
  refine ⟨fun mv hmv => h.map_eq hS hE hf hmv, fun a b s ha hb => ?_⟩
  exact h.map_linear hS hE hf (Algebra.validate_eq_ok_iff.mp ha).hasCoeffs
    (Algebra.validate_eq_ok_iff.mp hb).hasCoeffs s

/-- The walk with an image of mixed grades, and the sample map on a multivector, on a vector and on
    `a + 5 b`. -/
theorem map_eq_sumOfBlades_sample :
    let A : Algebra Int := ⟨.mixed, .integers, .auto⟩
    let f : Outermorphism Int := ⟨3, [.ofList [(0, (2 : Int)), (5, 1)], .ofList [(3, (4 : Int))]]⟩
    let a : Multivector Int := .ofBlades [(1, 2), (6, 3)]
    let v : Multivector Int := .vector [1, 4, -1]
    (3, 8) ∈ (Terms.compact .integers
      (BladeTree.sumOfImages .integers f.images (.ofBlades [(3, 1)])).1).terms ∧
    (∃ m, sample.map .integers a = .ok m ∧ A.sumOfBlades sample a = .ok m) ∧
    (∃ m, sample.map .integers v = .ok m ∧ sample.mapVector .integers v = .ok m) ∧
    ∃ m, (do sample.map .integers (← A.add a (← A.scale v 5))) = .ok m ∧
      (do A.add (← sample.map .integers a) (← A.scale (← sample.map .integers v) 5)) = .ok m := by
  intro A f a v
  obtain ⟨hwalk, -⟩ := map_eq_sumOfBlades Scalars.isRing_integers Scalars.isExact_integers f
  obtain ⟨-, hmap⟩ := map_eq_sumOfBlades Scalars.isRing_integers Scalars.isExact_integers sample
  obtain ⟨hmap, hlinear⟩ := hmap built_sample A A rfl ⟨rfl, rfl, rfl⟩
  have hbelow : ∀ image ∈ f.images, ∀ b ∈ image, b < 2 ^ maxDimension := by
    simp [f, Std.ExtTreeMap.mem_ofList, maxDimension]
  obtain ⟨-, hterms⟩ := hwalk (.ofBlades [(3, 1)]) (by cbv)
  obtain ⟨m, hm, hsum, -⟩ := hmap a (by cbv)
  obtain ⟨w, hw, -, hvector⟩ := hmap v (by cbv)
  refine ⟨?_, ⟨m, hm, hsum⟩, ⟨w, hw, hvector (by decide +kernel)⟩,
    hlinear a v 5 (by cbv) (by cbv)⟩
  rw [(hterms hbelow).2]
  decide +kernel

end Outermorphism

end GeometricAlgebra

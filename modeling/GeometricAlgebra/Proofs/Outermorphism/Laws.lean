import GeometricAlgebra.Proofs.Outermorphism.Map

set_option autoImplicit false

/-! # Laws of outermorphisms

An outermorphism preserves outer products and scalars, whatever the squares of the vectors on either
side. It is determined by its matrix, so composing two of them multiplies their matrices; and as the
outer product of images is kept, the composition maps every multivector as the two maps do one after
the other. -/

namespace GeometricAlgebra

open Blade

variable {α : Type} [CommRing α]

namespace Outermorphism

/-! ## Outer products -/

/-- **Outermorphisms preserve the outer product.** Multiplying before or after mapping gives the
    same multivector; and a scalar is mapped to itself, as the multivector without terms if it is
    zero. -/
theorem map_outer {A B : Algebra α} (hS : A.scalars.IsRing) (hE : A.scalars.IsExact)
    {f : Outermorphism α} (hf : f.Built) (h : f.Between A B) :
    (∀ a b, A.validate a = .ok () → A.validate b = .ok () →
      ∃ m, (do f.map A.scalars (← A.product .outer a b)) = .ok m ∧
        (do B.product .outer (← f.map A.scalars a) (← f.map A.scalars b)) = .ok m) ∧
    ∀ v, ∃ m, f.map A.scalars (.scalar v) = .ok m ∧ B.areEqual m (.scalar v) = .ok true ∧
      m = if A.scalars.isZero v then .zero else .scalar v := by
  have hSB : B.scalars.IsRing := h.scalars_eq ▸ hS
  have hEB : B.scalars.IsExact := h.scalars_eq ▸ hE
  have hwf := hf.wellFormed
  refine ⟨fun a b ha hb => ?_, fun v => ?_⟩
  · have hxa := (Algebra.validate_eq_ok_iff.mp ha).hasCoeffs
    have hxb := (Algebra.validate_eq_ok_iff.mp hb).hasCoeffs
    obtain ⟨ab, hab, rab⟩ := Algebra.outer_spec hS hE hxa hxb
    obtain ⟨m, hm, rm⟩ := h.map_spec hS hE hwf (rab.hasCoeffs hE A.dimension_le)
    obtain ⟨fa, hfa, rfa⟩ := h.map_spec hS hE hwf hxa
    obtain ⟨fb, hfb, rfb⟩ := h.map_spec hS hE hwf hxb
    obtain ⟨m', hm', rm'⟩ := Algebra.outer_spec hSB hEB (rfa.hasCoeffs hEB B.dimension_le)
      (rfb.hasCoeffs hEB B.dimension_le)
    rw [extension_outerProduct hwf.ofGrade] at rm
    obtain rfl := rm.unique hEB.isZero_zero rm'
    refine ⟨m, bind_eq_ok_iff.mpr ⟨ab, hab, hm⟩, ?_⟩
    exact bind_eq_ok_iff.mpr ⟨fa, hfa, bind_eq_ok_iff.mpr ⟨fb, hfb, hm'⟩⟩
  · obtain ⟨m, hm, rm⟩ := h.map_spec hS hE hwf (Multivector.hasCoeffs_scalar v)
    rw [map_smul, extension_bladeFamily _ (Nat.two_pow_pos _), bladeImage_zero] at rm
    refine ⟨m, hm, Algebra.areEqual_spec hSB hEB (rm.hasCoeffs hEB B.dimension_le)
      (Multivector.hasCoeffs_scalar v), ?_⟩
    rw [← h.scalars_eq]
    cases hv : B.scalars.isZero v with
    | true =>
        rw [(hEB v).mp hv, zero_smul] at rm
        exact rm.unique hEB.isZero_zero Multivector.represents_zero
    | false => exact rm.unique hEB.isZero_zero (Multivector.represents_scalar hv)

/-- The outer product of `e₀ + 4 e₂` and `e₁ e₂ - e₀`, and the scalar `5`, mapped to an algebra
    where all squares are `1`. -/
theorem map_outer_sample :
    let A : Algebra Int := ⟨.mixed, .integers, .auto⟩
    let B : Algebra Int := ⟨⟨3, 0, 0, by decide, by decide, by decide, by decide⟩, .integers, .tree⟩
    let a : Multivector Int := .vector [1, 0, 4]
    let b : Multivector Int := .ofBlades [(1, -1), (6, 1)]
    (∃ m, (do sample.map .integers (← A.product .outer a b)) = .ok m ∧
      (do B.product .outer (← sample.map .integers a) (← sample.map .integers b)) = .ok m) ∧
    sample.map .integers (.scalar 5) = .ok (.scalar 5) := by
  intro A B a b
  obtain ⟨houter, hscalar⟩ := map_outer (A := A) (B := B) Scalars.isRing_integers
    Scalars.isExact_integers built_sample ⟨rfl, rfl, rfl⟩
  refine ⟨houter a b (by cbv) (by cbv), ?_⟩
  obtain ⟨m, hm, -, hvalue⟩ := hscalar 5
  rw [hm, hvalue]
  rfl

/-! ## Matrices -/

/-- The rows of a matrix as lists. -/
def rowsOf {m n : Nat} (M : Matrix (Fin m) (Fin n) α) : List (List α) :=
  List.ofFn fun i => List.ofFn (M i)

omit [CommRing α] in
theorem rowsOf_of (m n : Nat) (entry : Nat → Nat → α) :
    rowsOf (Matrix.of fun (i : Fin m) (j : Fin n) => entry i j)
      = (List.range m).map fun i => (List.range n).map fun j => entry i j := by
  refine List.ext_getElem (by simp [rowsOf]) fun i _ _ => ?_
  refine List.ext_getElem (by simp [rowsOf]) fun j _ _ => ?_
  simp [rowsOf]

/-- The entry of the matrix of the map in a row and a column. -/
def entry (S : Scalars α) (f : Outermorphism α) (i j : Nat) : α :=
  ((f.matrix S).getD i []).getD j S.zero

/-- The matrix of the map as a function of row and column. -/
def toMatrix (S : Scalars α) (f : Outermorphism α) (m n : Nat) : Matrix (Fin m) (Fin n) α :=
  Matrix.of fun i j => f.entry S i j

section Matrix

variable {S : Scalars α} {f g : Outermorphism α}

/-- The matrix holds the coordinates of the images of the basis vectors. -/
theorem matrix_eq (hS : S.IsRing) {m n : Nat} (hm : f.target = m) (hn : f.domain = n) :
    f.matrix S = rowsOf (Matrix.of fun (i : Fin m) (j : Fin n) => f.family j (ofVector i)) := by
  subst hm hn
  refine List.ext_getElem (by simp [matrix, rowsOf]) fun i _ _ => ?_
  refine List.ext_getElem (by simp [matrix, rowsOf, domain]) fun j _ hj => ?_
  have hlt : j < f.domain := by simpa [rowsOf] using hj
  simp only [matrix, rowsOf, List.getElem_map, List.getElem_range, List.getElem_ofFn,
    Matrix.of_apply, hS.zero]
  rw [domain] at hlt
  rw [family, BladeTree.imageFamily, List.getD_eq_getElem _ _ hlt, Terms.coeff]

theorem entry_eq (hS : S.IsRing) {i j : Nat} (hi : i < f.target) (hj : j < f.domain) :
    f.entry S i j = f.family j (ofVector i) := by
  have hrow : i < (rowsOf (m := f.target) (n := f.domain)
      (Matrix.of fun i j => f.family j (ofVector i))).length := by simpa [rowsOf] using hi
  rw [entry, matrix_eq hS rfl rfl, List.getD_eq_getElem _ _ hrow]
  simp [rowsOf, hj]

theorem toMatrix_apply (hS : S.IsRing) {m n : Nat} (hm : f.target = m) (hn : f.domain = n)
    (i : Fin m) (j : Fin n) : f.toMatrix S m n i j = f.family j (ofVector i) :=
  entry_eq hS (i.isLt.trans_eq hm.symm) (j.isLt.trans_eq hn.symm)

theorem matrix_eq_rowsOf (hS : S.IsRing) {m n : Nat} (hm : f.target = m) (hn : f.domain = n) :
    f.matrix S = rowsOf (f.toMatrix S m n) := by
  have hentries : f.toMatrix S m n
      = Matrix.of fun (i : Fin m) (j : Fin n) => f.family j (ofVector i) := by
    ext i j
    rw [toMatrix_apply hS hm hn, Matrix.of_apply]
  rw [hentries, matrix_eq hS hm hn]

/-- The matrix of a map depends on the images of vectors alone. -/
theorem matrix_congr (hS : S.IsRing) (htarget : f.target = g.target) (hdomain : f.domain = g.domain)
    (hfamily : f.family = g.family) : f.matrix S = g.matrix S := by
  rw [matrix_eq hS htarget hdomain, matrix_eq hS rfl rfl, hfamily]

/-- So does what a map does to multivectors, those outside its domain included. -/
theorem map_congr (hS : S.IsRing) (hE : S.IsExact) (hf : f.WellFormed) (hg : g.WellFormed)
    (htarget : f.target = g.target) (hdomain : f.domain = g.domain)
    (hfamily : f.family = g.family) (mv : Multivector α) : f.map S mv = g.map S mv := by
  cases hvalid : mv.validate f.domain with
  | error e =>
      have hleft : f.map S mv = .error e := by
        rw [map, hvalid]
        rfl
      have hright : g.map S mv = .error e := by
        rw [map, ← hdomain, hvalid]
        rfl
      rw [hleft, hright]
  | ok =>
      have hrange := ((Multivector.validate_eq_ok_iff _ _).mp hvalid).2
      obtain ⟨m, hm, rm⟩ := map_spec hS hE hf hrange.hasCoeffs
      rw [hdomain] at hrange
      obtain ⟨m', hm', rm'⟩ := map_spec hS hE hg hrange.hasCoeffs
      rw [htarget, hdomain, hfamily] at rm
      rw [hm, hm', rm.unique hE.isZero_zero rm']

end Matrix

/-! ## Composition -/

section Comp

variable {S : Scalars α} {f g : Outermorphism α}

theorem hasCoeffs_sparse {n : Nat} {t : Terms α} (ht : ∀ b ∈ t, b < 2 ^ n) :
    (Multivector.sparse t).HasCoeffs n (Terms.coeff t) := by
  refine ⟨ht, fun r _ => ?_⟩
  rw [Multivector.coeff, Multivector.get?, Terms.coeff_eq_getElem?]

theorem image_spec (hf : f.WellFormed) {i : Nat} (hi : i < f.domain) :
    ∃ m, f.image i = .ok m ∧ m.HasCoeffs f.target (f.family i) := by
  refine ⟨.sparse f.images[i], ?_, ?_⟩
  · rw [image, List.getElem?_eq_getElem hi]
  · have h := hasCoeffs_sparse fun b hb => (hf.vectors f.images[i] (List.getElem_mem hi) b hb).1
    rwa [← List.getD_eq_getElem f.images ∅ hi] at h ⊢

/-- The images of the composed map are the images of images. -/
theorem family_of_forall₂ {n : Nat} (hn : n ≤ maxDimension) {F : (Nat → α) → Nat → α}
    (hzero : F 0 = 0) (hout : ∀ x r, 2 ^ n ≤ r → F x r = 0)
    {images : List (Terms α)} {mapped : List (Multivector α)}
    (h : List.Forall₂ (fun m image => m.HasCoeffs n (F (Terms.coeff image))) mapped images)
    (i : Nat) :
    BladeTree.imageFamily (mapped.map Multivector.toTerms) i
      = F (BladeTree.imageFamily images i) := by
  induction h generalizing i with
  | nil =>
      have hempty : BladeTree.imageFamily ([] : List (Terms α)) i = 0 := by
        funext r
        exact Terms.coeff_empty r
      rw [List.map_nil, hempty, hzero]
  | cons hm _ ih =>
      cases i with
      | zero =>
          obtain ⟨hrange, hcoeff⟩ := hm
          funext r
          refine (Multivector.coeff_toTerms hn hrange r).trans ?_
          split
          · next hr => exact hcoeff r hr
          · next hr => exact (hout _ r (not_lt.mp hr)).symm
      | succ i => exact ih i

/-- The image of an image is a vector again. -/
theorem mapVector_image_spec (hS : S.IsRing) (h0 : S.isZero 0 = true) (hf : f.WellFormed)
    (hg : g.WellFormed) (heq : g.target = f.domain) {image : Terms α} (himage : image ∈ g.images) :
    ∃ m, f.mapVector S (.sparse image) = .ok m ∧
      m.HasCoeffs f.target (fun r => S.cut (extension f.domain f.family (Terms.coeff image) r)) ∧
      m.InRange f.target ∧ ∀ t ∈ m.terms, grade t.1 = 1 := by
  have hin := hg.vectors image himage
  rw [heq] at hin
  have hvector : OfGrade f.domain 1 (Terms.coeff image) := by
    intro b hb
    refine hin b ?_
    by_contra hmem
    exact hb (Std.ExtTreeMap.getD_eq_fallback hmem)
  obtain ⟨m, hm, rm⟩ := mapVector_spec hS hf (hasCoeffs_sparse fun b hb => (hin b hb).1)
    fun t ht => (hin t.1 (Terms.mem_of_mem_toList ht)).2
  have hcoeffs := rm.hasCoeffs_cut h0 hf.target_le
  refine ⟨m, hm, hcoeffs, hcoeffs.inRange, fun t ht => ?_⟩
  obtain ⟨-, hv, hne⟩ := (rm.mem_terms_iff_isZero h0 hf.target_le).mp ht
  refine (hvector.extension hf.ofGrade t.1 fun hzero => ?_).2
  rw [hv, hzero, h0] at hne
  cases hne

/-- **What composing two maps gives**: the images of images, without the coefficients that count as
    zero. -/
theorem comp_spec_cut (hS : S.IsRing) (h0 : S.isZero 0 = true) (hf : f.WellFormed)
    (hg : g.WellFormed) (heq : g.target = f.domain) :
    ∃ h, f.comp S g = .ok h ∧ h.WellFormed ∧ h.target = f.target ∧ h.domain = g.domain ∧
      h.family = fun i r => S.cut (extension f.domain f.family (g.family i) r) := by
  obtain ⟨mapped, hmapped, hforall⟩ :=
    mapM_eq_ok fun image himage => mapVector_image_spec hS h0 hf hg heq himage
  -- what makes the new images acceptable, apart from what they are
  have hpairs : List.Forall₂ (fun (m : Multivector α) (image : Terms α) =>
      (m.InRange f.target ∧ ∀ t ∈ m.terms, grade t.1 = 1) ∧ m.HasCoeffs f.target
        fun r => S.cut (extension f.domain f.family (Terms.coeff image) r))
      mapped g.images := hforall.flip.imp fun _ _ h => ⟨h.2, h.1⟩
  obtain ⟨hvalid, hcoeffs⟩ := (List.forall₂_and_left _ _).mp hpairs
  have hok := ofImages_eq_ok_iff.mpr
    ⟨hg.domain_le, hf.target_le, hforall.length_eq.symm, hvalid, rfl⟩
  refine ⟨_, ?_, wellFormed_of_ofImages hok, rfl, ?_, ?_⟩
  · rw [comp, if_neg (not_not.mpr heq)]
    exact bind_eq_ok_iff.mpr ⟨mapped, hmapped, hok⟩
  · rw [domain, domain, List.length_map, hforall.length_eq]
  · funext i
    refine family_of_forall₂ (F := fun x r => S.cut (extension f.domain f.family x r))
      hf.target_le ?_ (fun x r hr => ?_) hcoeffs i
    · funext r
      rw [map_zero, Pi.zero_apply, S.cut_zero]
    · rw [extension_eq_zero hf.ofGrade x hr, S.cut_zero]

theorem comp_spec (hS : S.IsRing) (hE : S.IsExact) (hf : f.WellFormed) (hg : g.WellFormed)
    (heq : g.target = f.domain) :
    ∃ h, f.comp S g = .ok h ∧ h.WellFormed ∧ h.target = f.target ∧ h.domain = g.domain ∧
      h.family = fun i => extension f.domain f.family (g.family i) := by
  simpa only [hE.cut_eq] using comp_spec_cut hS hE.isZero_zero hf hg heq

/-- Images of images have the coordinates that the product of the matrices gives. -/
theorem extension_family_ofVector (hS : S.IsRing) (hg : g.WellFormed) {m k n : Nat}
    (hft : f.target = m) (hfd : f.domain = k) (hgt : g.target = k) (hgd : g.domain = n) (i : Fin m)
    (j : Fin n) : extension f.domain f.family (g.family j) (ofVector i)
      = (f.toMatrix S m k * g.toMatrix S k n) i j := by
  have hvector : OfGrade f.domain 1 (g.family j) := by
    rw [hfd, ← hgt]
    exact hg.ofGrade j
  rw [Matrix.mul_apply]
  refine (congrFun (extension_of_vector f.family hvector) (ofVector i)).trans ?_
  rw [hfd, Finset.sum_apply, Finset.sum_range]
  refine Finset.sum_congr rfl fun l _ => ?_
  rw [toMatrix_apply hS hft hfd, toMatrix_apply hS hgt hgd, Pi.smul_apply, smul_eq_mul, mul_comm]

/-- The matrix of the composed map is the product of the matrices. -/
theorem toMatrix_comp (hS : S.IsRing) (hg : g.WellFormed) {m k n : Nat} (hft : f.target = m)
    (hfd : f.domain = k) (hgt : g.target = k) (hgd : g.domain = n) {h : Outermorphism α}
    (hht : h.target = m) (hhd : h.domain = n)
    (hfamily : h.family = fun i => extension f.domain f.family (g.family i)) :
    h.toMatrix S m n = f.toMatrix S m k * g.toMatrix S k n := by
  ext i j
  rw [toMatrix_apply hS hht hhd, hfamily]
  exact extension_family_ofVector hS hg hft hfd hgt hgd i j

/-- The composed map does to multivectors what the two maps do one after the other. -/
theorem map_comp (hS : S.IsRing) (hE : S.IsExact) (hf : f.WellFormed) (hg : g.WellFormed)
    (heq : g.target = f.domain) {h : Outermorphism α} (hh : h.WellFormed)
    (htarget : h.target = f.target) (hdomain : h.domain = g.domain)
    (hfamily : h.family = fun i => extension f.domain f.family (g.family i)) {a : Multivector α}
    (ha : a.InRange g.domain) :
    ∃ m, h.map S a = .ok m ∧ (do f.map S (← g.map S a)) = .ok m := by
  obtain ⟨ga, hga, rga⟩ := map_spec hS hE hg ha.hasCoeffs
  have hinner := rga.hasCoeffs hE hg.target_le
  rw [heq] at hinner
  obtain ⟨m, hm, rm⟩ := map_spec hS hE hf hinner
  rw [← hdomain] at ha
  obtain ⟨m', hm', rm'⟩ := map_spec hS hE hh ha.hasCoeffs
  rw [hfamily, extension_extension hf.ofGrade, htarget, hdomain] at rm'
  obtain rfl := rm.unique hE.isZero_zero rm'
  exact ⟨m, hm', bind_eq_ok_iff.mpr ⟨ga, hga, hm⟩⟩

end Comp

/-! ## The identity -/

section Identity

variable {S : Scalars α} {f : Outermorphism α}

theorem identity_spec (hS : S.IsRing) {n : Nat} (hn : n ≤ maxDimension) :
    ∃ e : Outermorphism α, identity S n = .ok e ∧ e.WellFormed ∧ e.target = n ∧ e.domain = n ∧
      ∀ i < n, e.family i = bladeFamily (ofVector i) := by
  have hok := (identity_eq_ok_iff (S := S)).mpr ⟨hn, rfl⟩
  refine ⟨_, hok, wellFormed_of_identity hok, rfl, by simp [domain], fun i hi => ?_⟩
  have hlt : i < ((List.range n).map fun i =>
      (∅ : Terms α).insert (ofVector i) S.one).length := by simpa using hi
  rw [family, BladeTree.imageFamily, List.getD_eq_getElem _ _ hlt, List.getElem_map,
    List.getElem_range, Terms.coeff_singleton, hS.one, one_smul]

theorem family_eq_zero {i : Nat} (hi : f.domain ≤ i) : f.family i = 0 := by
  funext r
  rw [family, BladeTree.imageFamily, List.getD_eq_default _ _ hi, Terms.coeff_empty, Pi.zero_apply]

/-- Composing with the identity gives back the images of the basis vectors. -/
theorem comp_identity (hS : S.IsRing) (hE : S.IsExact) (hf : f.WellFormed) :
    ∃ e h, identity S f.domain = .ok e ∧ f.comp S e = .ok h ∧ h.matrix S = f.matrix S ∧
      ∀ a, h.map S a = f.map S a := by
  obtain ⟨e, he, hwf, htarget, hdomain, hfamily⟩ := identity_spec hS hf.domain_le
  obtain ⟨h, hh, hhwf, hht, hhd, hhf⟩ := comp_spec hS hE hf hwf htarget
  have heq : h.family = f.family := by
    rw [hhf]
    funext i
    -- beyond the domain there are no images on either side
    rcases Nat.lt_or_ge i f.domain with hi | hi
    · rw [hfamily i hi, extension_bladeFamily _ (ofVector_lt_iff.mpr hi), bladeImage_ofVector]
    · rw [family_eq_zero (hdomain.trans_le hi), map_zero, family_eq_zero hi]
  refine ⟨e, h, he, hh, matrix_congr hS hht (hhd.trans hdomain) heq, fun a => ?_⟩
  exact map_congr hS hE hhwf hf hht (hhd.trans hdomain) heq a

theorem identity_comp (hS : S.IsRing) (hE : S.IsExact) (hf : f.WellFormed) :
    ∃ e h, identity S f.target = .ok e ∧ e.comp S f = .ok h ∧ h.matrix S = f.matrix S ∧
      ∀ a, h.map S a = f.map S a := by
  obtain ⟨e, he, hwf, htarget, hdomain, hfamily⟩ := identity_spec hS hf.target_le
  obtain ⟨h, hh, hhwf, hht, hhd, hhf⟩ := comp_spec hS hE hwf hf hdomain.symm
  have heq : h.family = f.family := by
    rw [hhf, hdomain]
    exact funext fun i => extension_eq_self hfamily (hf.ofGrade i)
  refine ⟨e, h, he, hh, matrix_congr hS (hht.trans htarget) hhd heq, fun a => ?_⟩
  exact map_congr hS hE hhwf hf (hht.trans htarget) hhd heq a

end Identity

/-! ## The law of composition -/

/-- **Composing maps multiplies their matrices and applies them one after the other.** The
    composition fails, with a mismatch of dimensions, iff the maps do not fit; and the identity is
    neutral on both sides. -/
theorem comp_matrix_map {S : Scalars α} (hS : S.IsRing) (hE : S.IsExact) {f g : Outermorphism α}
    (hf : f.Built) (hg : g.Built) :
    ((∃ e, f.comp S g = .error e ∧ e.kind = .dimensionMismatch) ↔ g.target ≠ f.domain) ∧
    (g.target = f.domain → ∃ h, f.comp S g = .ok h ∧
      h.matrix S = rowsOf (f.toMatrix S f.target f.domain * g.toMatrix S f.domain g.domain) ∧
      ∀ a, a.validate g.domain = .ok () →
        ∃ m, h.map S a = .ok m ∧ (do f.map S (← g.map S a)) = .ok m) ∧
    (∃ e h, identity S f.domain = .ok e ∧ f.comp S e = .ok h ∧ h.matrix S = f.matrix S ∧
      ∀ a, h.map S a = f.map S a) ∧
    ∃ e h, identity S f.target = .ok e ∧ e.comp S f = .ok h ∧ h.matrix S = f.matrix S ∧
      ∀ a, h.map S a = f.map S a := by
  have hwf := hf.wellFormed
  have hwg := hg.wellFormed
  refine ⟨⟨?_, fun hne => ?_⟩, fun heq => ?_, comp_identity hS hE hwf, identity_comp hS hE hwf⟩
  · rintro ⟨e, he, -⟩ heq
    obtain ⟨h, hh, -⟩ := comp_spec hS hE hwf hwg heq
    rw [he] at hh
    cases hh
  · exact ⟨_, by rw [comp, if_pos hne], rfl⟩
  · obtain ⟨h, hh, hhwf, htarget, hdomain, hfamily⟩ := comp_spec hS hE hwf hwg heq
    refine ⟨h, hh, ?_, fun a ha => ?_⟩
    · rw [matrix_eq_rowsOf hS htarget hdomain,
        toMatrix_comp hS hwg rfl rfl heq rfl htarget hdomain hfamily]
    · exact map_comp hS hE hwf hwg heq hhwf htarget hdomain hfamily
        ((Multivector.validate_eq_ok_iff _ _).mp ha).2

/-- The sample map composed with itself. -/
theorem comp_matrix_map_sample :
    ∃ h, sample.comp .integers sample = .ok h ∧
      h.matrix .integers = [[4, -1, 2], [5, 9, 1], [-1, -3, 0]] ∧
      ∃ m, h.map .integers (.ofBlades [(0, 7), (3, 2), (6, -5)]) = .ok m ∧
        (do sample.map .integers (← sample.map .integers (.ofBlades [(0, 7), (3, 2), (6, -5)])))
          = .ok m := by
  obtain ⟨-, hcomp, -⟩ := comp_matrix_map Scalars.isRing_integers Scalars.isExact_integers
    built_sample built_sample
  obtain ⟨h, hh, hmatrix, hmap⟩ := hcomp rfl
  refine ⟨h, hh, ?_, hmap _ (by cbv)⟩
  rw [hmatrix]
  simp only [toMatrix, entry, matrix_sample]
  decide +kernel

end Outermorphism

end GeometricAlgebra

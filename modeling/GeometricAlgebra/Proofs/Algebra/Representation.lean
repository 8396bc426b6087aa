import GeometricAlgebra.Proofs.Algebra.Maps
import GeometricAlgebra.Proofs.Frame
import GeometricAlgebra.Proofs.Multivector.Refusal
import GeometricAlgebra.Proofs.Multivector.Updates
import GeometricAlgebra.Proofs.Multivector.Writing

set_option autoImplicit false

/-! # Results do not depend on the form of the operands

Two multivectors with the same coefficients can be held in different forms and so list their terms
in different orders (`SameTerms`). Nothing is known about the scalars here, so an operation that
added terms up in the order of the list could tell them apart. None does: what walks over the tree
starts from the terms sorted by blade (`rootTerms_eq`), and what goes over the list meets every
blade once (`foldl_terms_eq`). A product that takes every pair is the exception, as several pairs
can have the same blade; a frame may multiply in this way nevertheless, as it maps its operands
first.

A refusal can tell the forms apart: terms by grade may report another dimension than the same terms
in another form (`Multivector.validate_reports`). The algebra of the operands refuses neither, but a
map from a smaller one refuses both, and says so in other words if just one is by grade. -/

namespace GeometricAlgebra

open Blade

variable {α : Type}

namespace Multivector

/-! ## The same terms in two forms -/

/-- Both belong to an `n`-dimensional algebra and have the same coefficients by blade. -/
structure SameTerms (n : Nat) (a a' : Multivector α) : Prop where
  left : a.InRange n
  right : a'.InRange n
  toTerms_eq : a.toTerms = a'.toTerms

namespace SameTerms

variable {n : Nat} {a a' : Multivector α}

/-- The two list the same terms, each blade once. -/
theorem perm (hn : n ≤ maxDimension) (h : a.SameTerms n a') : a.terms.Perm a'.terms := by
  refine (List.perm_ext_iff_of_nodup (nodup_terms hn h.left).of_map
    (nodup_terms hn h.right).of_map).mpr fun t => ?_
  rw [← getElem?_toTerms_iff hn h.left, ← getElem?_toTerms_iff hn h.right, h.toTerms_eq]

/-- **Updates by the terms of either end in the same collection.** -/
theorem foldl_terms_eq (hn : n ≤ maxDimension) (h : a.SameTerms n a')
    {step : Terms α → Nat × α → Terms α} (hstep : ∀ s, Terms.Touches s.1 fun t => step t s)
    (t : Terms α) : a.terms.foldl step t = a'.terms.foldl step t :=
  Terms.foldl_perm hstep (h.perm hn) (nodup_terms hn h.left) t

theorem rootTerms_eq (h : a.SameTerms n a') (d : Nat) :
    BladeTree.rootTerms d a = BladeTree.rootTerms d a' := by
  rw [BladeTree.rootTerms, h.toTerms_eq, ← BladeTree.rootTerms]

/-- An algebra that is large enough takes both, unless there is no such algebra. -/
theorem validate_eq (h : a.SameTerms n a') {d : Nat} (hnd : n ≤ d) :
    a.validate d = a'.validate d := by
  by_cases hd : d ≤ maxDimension
  · have hn := hnd.trans hd
    have hvalid : ∀ {mv : Multivector α}, mv.InRange n → mv.validate d = .ok () := by
      intro mv hmv
      refine (Multivector.validate_eq_ok_iff d mv).mpr ⟨hd, (inRange_iff hn hmv hd).mpr ?_⟩
      intro t ht
      exact (lt_of_mem_terms hn hmv ht).trans_le (Nat.pow_le_pow_right (by decide) hnd)
    rw [hvalid h.left, hvalid h.right]
  · have hdimension : validateDimension d = .error (.dimensionTooLarge d) := by
      rw [validateDimension, if_pos (not_le.mp hd)]
    rw [validate.eq_def, validate.eq_def, hdimension]
    rfl

/-- Any other algebra takes both or neither. -/
theorem validate_eq_ok_iff (hn : n ≤ maxDimension) (h : a.SameTerms n a') (d : Nat) :
    a.validate d = .ok () ↔ a'.validate d = .ok () := by
  rw [Multivector.validate_eq_ok_iff, Multivector.validate_eq_ok_iff]
  refine and_congr_right fun hd => ?_
  rw [inRange_iff hn h.left hd, inRange_iff hn h.right hd]
  exact forall_congr' fun t => imp_congr_left (h.perm hn).mem_iff

theorem validate_cases (hn : n ≤ maxDimension) (h : a.SameTerms n a') (d : Nat) :
    a.validate d = a'.validate d ∨ ∃ r r', a.validate d = .error (.dimensionMismatch d r) ∧
      a'.validate d = .error (.dimensionMismatch d r') ∧
      (¬ a.IsGraded → r = a.requiredDimension) ∧ (¬ a'.IsGraded → r' = a'.requiredDimension) := by
  by_cases hd : d ≤ maxDimension
  · have hiff := h.validate_eq_ok_iff hn d
    rcases Multivector.validate_cases hn h.left hd with hv | ⟨_, hv, r, rfl⟩
    · exact Or.inl (hv.trans (hiff.mp hv).symm)
    · rcases Multivector.validate_cases hn h.right hd with hv' | ⟨_, hv', r', rfl⟩
      · exact Or.inl ((hiff.mpr hv').trans hv'.symm)
      · exact Or.inr ⟨r, r', hv, hv',
          fun hform => eq_requiredDimension_of_validate hn h.left hform hd hv,
          fun hform => eq_requiredDimension_of_validate hn h.right hform hd hv'⟩
  · exact Or.inl (h.validate_eq (hn.trans (not_le.mp hd).le))

theorem requiredDimension_eq (hn : n ≤ maxDimension) (h : a.SameTerms n a') :
    a.requiredDimension = a'.requiredDimension := by
  refine eq_of_forall_ge_iff fun d => ?_
  rw [requiredDimension_le_iff_terms, requiredDimension_le_iff_terms]
  exact forall_congr' fun t => imp_congr_left (h.perm hn).mem_iff

/-- **Refusals differ only between terms by grade and other forms.** -/
theorem validate_eq_of_isGraded_iff (hn : n ≤ maxDimension) (h : a.SameTerms n a')
    (hform : a.IsGraded ↔ a'.IsGraded) (d : Nat) : a.validate d = a'.validate d := by
  by_cases hd : d ≤ maxDimension
  · by_cases hlt : d < a.requiredDimension
    · have hlt' : d < a'.requiredDimension := h.requiredDimension_eq hn ▸ hlt
      by_cases hgraded : a.IsGraded
      · -- the least grade that does not fit, and what it needs, are told by the terms
        obtain ⟨grades, hgrades⟩ := hgraded
        obtain ⟨grades', hgrades'⟩ := hform.mp ⟨grades, hgrades⟩
        obtain ⟨g, m, herror, hleast, hgreatest⟩ :=
          validate_graded_eq_error hn h.left hgrades hd hlt
        obtain ⟨g', m', herror', hleast', hgreatest'⟩ :=
          validate_graded_eq_error hn h.right hgrades' hd hlt'
        simp only [← (h.perm hn).mem_iff] at hleast' hgreatest'
        obtain rfl := hleast.unique hleast'
        obtain rfl := hgreatest.unique hgreatest'
        rw [herror, herror']
      · have hgraded' : ¬ a'.IsGraded := hform.not.mp hgraded
        rw [validate_eq_error_of_form hn h.left (not_exists.mp hgraded) hd hlt,
          validate_eq_error_of_form hn h.right (not_exists.mp hgraded') hd hlt',
          h.requiredDimension_eq hn]
    · have hvalid : a.validate d = .ok () :=
        ((h.left.coherent hn).validate_iff d hd).mpr
          (requiredDimension_le_iff_terms.mp (not_lt.mp hlt))
      rw [hvalid, (h.validate_eq_ok_iff hn d).mp hvalid]
  · exact h.validate_eq (hn.trans (not_le.mp hd).le)

end SameTerms

end Multivector

/-! ## Texts -/

namespace Multivector

theorem SameTerms.textTerms_eq (S : Scalars α) {n : Nat} {a a' : Multivector α}
    (hn : n ≤ maxDimension) (h : a.SameTerms n a') : a.textTerms S = a'.textTerms S := by
  rw [textTerms_eq_iff hn h.left h.right, h.toTerms_eq]

theorem SameTerms.toText_eq (S : Scalars α) {n : Nat} {a a' : Multivector α}
    (hn : n ≤ maxDimension) (h : a.SameTerms n a') : a.toText S = a'.toText S := by
  rw [toText, h.textTerms_eq S hn, ← toText]

end Multivector

/-! ## Maps -/

namespace Outermorphism

variable {n : Nat} {a a' : Multivector α} {f : Outermorphism α} {S : Scalars α}

theorem sumOfImages_congr (h : a.SameTerms n a') :
    BladeTree.sumOfImages S f.images a = BladeTree.sumOfImages S f.images a' := by
  rw [BladeTree.sumOfImages, h.rootTerms_eq, ← BladeTree.sumOfImages]

theorem map_eq_of_sameTerms (h : a.SameTerms n a')
    (hvalid : a.validate f.domain = a'.validate f.domain) : f.map S a = f.map S a' := by
  rw [map, map, hvalid, sumOfImages_congr h]

/-- A map of another algebra refuses both, if it does not give the same for both. -/
theorem map_cases (hn : n ≤ maxDimension) (h : a.SameTerms n a') :
    f.map S a = f.map S a' ∨ ∃ r r', f.map S a = .error (.dimensionMismatch f.domain r) ∧
      f.map S a' = .error (.dimensionMismatch f.domain r') ∧
      (¬ a.IsGraded → r = a.requiredDimension) ∧ (¬ a'.IsGraded → r' = a'.requiredDimension) := by
  rcases h.validate_cases hn f.domain with hvalid | ⟨r, r', hv, hv', hreport⟩
  · exact Or.inl (map_eq_of_sameTerms h hvalid)
  · refine Or.inr ⟨r, r', ?_, ?_, hreport⟩
    · rw [map, hv]
      rfl
    · rw [map, hv']
      rfl

end Outermorphism

/-! ## Operations -/

namespace Algebra

variable {A : Algebra α} {a a' b b' : Multivector α}

theorem validate_congr (h : a.SameTerms A.dimension a') : A.validate a = A.validate a' :=
  h.validate_eq le_rfl

/-- A walk does not see the forms of the factors. -/
theorem product_congr (htree : A.strategy = .tree) (k : Product) (h : a.SameTerms A.dimension a')
    (hvalid : A.validate b = A.validate b') (hb : b.toTerms = b'.toTerms) :
    A.product k a b = A.product k a' b' := by
  simp only [product, htree, Strategy.usesTree, if_true, validate_congr h, hvalid, productOfTree,
    BladeTree.foldPairs, BladeTree.rootTerms, h.toTerms_eq, hb]

/-- The other factor can be any multivector. -/
theorem product_congr_left (htree : A.strategy = .tree) (k : Product)
    (h : a.SameTerms A.dimension a') (b : Multivector α) : A.product k a b = A.product k a' b :=
  product_congr htree k h rfl rfl

theorem add_congr (h : a.SameTerms A.dimension a') (hb : b.SameTerms A.dimension b') :
    A.add a b = A.add a' b' := by
  have hfold := hb.foldl_terms_eq A.dimension_le (fun s => Terms.touches_add A.scalars s.1 s.2)
  simp only [add, validate_congr h, validate_congr hb, h.toTerms_eq, Terms.addAll, hfold]

theorem subtract_congr (h : a.SameTerms A.dimension a') (hb : b.SameTerms A.dimension b') :
    A.subtract a b = A.subtract a' b' := by
  have hfold := hb.foldl_terms_eq A.dimension_le (fun s => Terms.touches_subtract A.scalars s.1 s.2)
  simp only [subtract, validate_congr h, validate_congr hb, h.toTerms_eq, Terms.subtractAll, hfold]

theorem scale_congr (h : a.SameTerms A.dimension a') (factor : α) :
    A.scale a factor = A.scale a' factor := by
  have hfold := h.foldl_terms_eq A.dimension_le
    (fun s => Terms.touches_add A.scalars s.1 (A.scalars.mul s.2 factor))
  simp only [scale, validate_congr h, Terms.addScaled, hfold]

theorem negate_congr (h : a.SameTerms A.dimension a') : A.negate a = A.negate a' := by
  have hfold := h.foldl_terms_eq A.dimension_le (fun s => Terms.touches_subtract A.scalars s.1 s.2)
  simp only [negate, validate_congr h, Terms.subtractAll, hfold]

theorem gradePart_congr (h : a.SameTerms A.dimension a') (grades : List Nat) :
    A.gradePart a grades = A.gradePart a' grades := by
  simp only [gradePart, validate_congr h, BladeTree.termsOfGrades, h.rootTerms_eq]

theorem mapGradeSign_congr (h : a.SameTerms A.dimension a') (signOf : Nat → Int) :
    A.mapGradeSign signOf a = A.mapGradeSign signOf a' := by
  have hfold := h.foldl_terms_eq A.dimension_le
    (fun s => Terms.touches_addSigned A.scalars s.1 (signOf (grade s.1)) s.2)
  simp only [mapGradeSign, validate_congr h, hfold]

theorem reverse_congr (h : a.SameTerms A.dimension a') : A.reverse a = A.reverse a' :=
  mapGradeSign_congr h _

theorem normSquared_congr (htree : A.strategy = .tree) (h : a.SameTerms A.dimension a') :
    A.normSquared a = A.normSquared a' := by
  simp only [normSquared, scalarProduct, reverse_congr h, product_congr_left htree _ h]

theorem versorInverse_congr (htree : A.strategy = .tree) (h : a.SameTerms A.dimension a') :
    A.versorInverse a = A.versorInverse a' := by
  simp only [versorInverse, scalarProduct, reverse_congr h, product_congr_left htree _ h]

end Algebra

/-! ## Frames -/

/-- The operands are mapped before they are multiplied. -/
theorem Frame.product_congr {F : Frame α} {n : Nat} {a a' b b' : Multivector α} (k : Product)
    (hn : n ≤ F.toOrthonormal.domain) (h : a.SameTerms n a') (hb : b.SameTerms n b') :
    F.product k a b = F.product k a' b' := by
  have hleft : F.toAlgebra a = F.toAlgebra a' :=
    Outermorphism.map_eq_of_sameTerms h (h.validate_eq hn)
  have hright : F.toAlgebra b = F.toAlgebra b' :=
    Outermorphism.map_eq_of_sameTerms hb (hb.validate_eq hn)
  rw [Frame.product, Frame.product, hleft, hright]

namespace Algebra

/-! ## All results -/

/-- **Results do not depend on the form of the operands, whatever the arithmetic.** Where products
    walk over the tree, every operation gives the same for two pairs of operands with the same
    coefficients. So does a map from the algebra, or from any that holds the operands, and any map
    at all if both operands are kept by grade or neither is. Otherwise a map from a smaller algebra
    gives the same or refuses both, and only the dimensions that the refusals name can differ: that
    of the operand which is not kept by grade is the one that its terms need. A frame gives the same
    product with every strategy, and the texts are the same. -/
theorem results_eq_of_toTerms_eq (A : Algebra α) (a a' b b' : Multivector α)
    (htree : A.strategy = .tree) (ha : A.validate a = .ok ()) (ha' : A.validate a' = .ok ())
    (hb : A.validate b = .ok ()) (hb' : A.validate b' = .ok ())
    (haa : a.toTerms = a'.toTerms) (hbb : b.toTerms = b'.toTerms) :
    (∀ k, A.product k a b = A.product k a' b') ∧
    A.add a b = A.add a' b' ∧
    A.subtract a b = A.subtract a' b' ∧
    (∀ factor, A.scale a factor = A.scale a' factor) ∧
    A.negate a = A.negate a' ∧
    (∀ grades, A.gradePart a grades = A.gradePart a' grades) ∧
    A.reverse a = A.reverse a' ∧
    A.gradeInvolution a = A.gradeInvolution a' ∧
    A.cliffordConjugate a = A.cliffordConjugate a' ∧
    A.normSquared a = A.normSquared a' ∧
    A.dual a = A.dual a' ∧
    A.undual a = A.undual a' ∧
    A.versorInverse a = A.versorInverse a' ∧
    (∀ f : Outermorphism α, A.dimension ≤ f.domain → A.map f a = A.map f a') ∧
    ((a.IsGraded ↔ a'.IsGraded) → ∀ f : Outermorphism α, A.map f a = A.map f a') ∧
    (∀ f : Outermorphism α, A.map f a = A.map f a' ∨
      ∃ r r', A.map f a = .error (.dimensionMismatch f.domain r) ∧
        A.map f a' = .error (.dimensionMismatch f.domain r') ∧
        (¬ a.IsGraded → r = a.requiredDimension) ∧ (¬ a'.IsGraded → r' = a'.requiredDimension)) ∧
    (∀ (s : Strategy) (f : Outermorphism α) (F : Frame α),
      Frame.ofMap { A with strategy := s } f = .ok F → ∀ k, F.product k a b = F.product k a' b') ∧
    a.toText A.scalars = a'.toText A.scalars := by
  have h : a.SameTerms A.dimension a' :=
    ⟨validate_eq_ok_iff.mp ha, validate_eq_ok_iff.mp ha', haa⟩
  have h' : b.SameTerms A.dimension b' :=
    ⟨validate_eq_ok_iff.mp hb, validate_eq_ok_iff.mp hb', hbb⟩
  have hleft : ∀ m, A.product .left a m = A.product .left a' m := product_congr_left htree _ h
  refine ⟨fun k => product_congr htree k h (validate_congr h') hbb, add_congr h h',
    subtract_congr h h', scale_congr h, negate_congr h, gradePart_congr h, reverse_congr h,
    mapGradeSign_congr h _, mapGradeSign_congr h _, normSquared_congr htree h, ?_, hleft _,
    versorInverse_congr htree h, fun f hdomain => ?_, fun hform f => ?_, fun f => ?_,
    fun s f F hF k => ?_, h.toText_eq A.scalars A.dimension_le⟩
  · simp only [dual, hleft]
  · rw [map, map, Outermorphism.map_eq_of_sameTerms h (h.validate_eq hdomain)]
  · rw [map, map, Outermorphism.map_eq_of_sameTerms h
      (h.validate_eq_of_isGraded_iff A.dimension_le hform f.domain)]
  · rw [map, map]
    split
    · exact Or.inl rfl
    · exact Outermorphism.map_cases A.dimension_le h
  · obtain ⟨hdomain, -, g, -, rfl⟩ := Frame.ofMap_eq_ok_iff.mp hF
    exact Frame.product_congr k hdomain.ge h h'

/-- A multivector by blade and by grade, and a vector by blade and by rank, where scalars are added
    in a way that is neither commutative nor associative. A map from the algebra does not tell the
    two forms apart. One from an algebra with a single vector refuses both: by blade, it reports the
    five vectors that they need, and by grade the three that are enough for `e₂` alone. -/
theorem results_eq_of_toTerms_eq_skewed :
    let sig : Signature := ⟨5, 2, 4, by decide, by decide, by decide, by decide⟩
    let S : Scalars Int := { Scalars.integers with add := fun x y => x + 2 * y }
    let A : Algebra Int := ⟨sig, S, .tree⟩
    let a : Multivector Int := .ofBlades [(3, 5), (4, 2), (24, 1)]
    let a' : Multivector Int := .ofGrades [(1, 2, 2), (2, 0, 5), (2, 9, 1)]
    let b : Multivector Int := .ofBlades [(2, 3)]
    let b' : Multivector Int := .ofRanks 1 [(1, 3)]
    let images : List (Multivector Int) :=
      [.vector [1, 1], .vector [0, 2], .vector [1, 0, 1], .vector [0, 1, 1, 1], .vector [3]]
    let f : Outermorphism Int := ⟨5, images.map Multivector.toTerms⟩
    let narrow : Outermorphism Int := ⟨5, [(Multivector.vector [1, 1]).toTerms]⟩
    a.terms ≠ a'.terms ∧ (∀ k, A.product k a b = A.product k a' b') ∧ A.add a b = A.add a' b' ∧
      A.versorInverse a = A.versorInverse a' ∧
      (∃ m, A.map f a = .ok m ∧ A.map f a' = .ok m) ∧ A.map narrow b = A.map narrow b' ∧
      a.requiredDimension = 5 ∧ A.map narrow a = .error (.dimensionMismatch 1 5) ∧
      A.map narrow a' = .error (.dimensionMismatch 1 3) ∧ a.toText S = a'.toText S := by
  intro sig S A a a' b b' images f narrow
  have hvalid : A.validate a = .ok () := by cbv
  have hvalid' : A.validate a' = .ok () := by cbv
  have hvector : A.validate b = .ok () := by cbv
  have hvector' : A.validate b' = .ok () := by cbv
  obtain ⟨hproduct, hadd, -, -, -, -, -, -, -, -, -, -, hinverse, hmap, -, hcases, -,
      htext⟩ :=
    results_eq_of_toTerms_eq A a a' b b' rfl hvalid hvalid' hvector hvector' (by cbv) (by cbv)
  obtain ⟨-, -, -, -, -, -, -, -, -, -, -, -, -, -, hforms, -⟩ :=
    results_eq_of_toTerms_eq A b b' a a' rfl hvector hvector' hvalid hvalid' (by cbv) (by cbv)
  obtain ⟨m, hm⟩ : ∃ m, A.map f a = .ok m := map_eq_ok_iff.mpr ⟨rfl, hvalid⟩
  have hgraded : ¬ b.IsGraded := Multivector.not_isGraded_sparse _
  have hgraded' : ¬ b'.IsGraded := Multivector.not_isGraded_kvector _ _
  have hnarrow : A.map narrow a = .error (.dimensionMismatch 1 5) := by cbv
  have hnarrow' : A.map narrow a' = .error (.dimensionMismatch 1 3) := by cbv
  have hrequired : a.requiredDimension = 5 := by
    rcases hcases narrow with heq | ⟨r, -, hr, -, hreport, -⟩
    · rw [hnarrow, hnarrow'] at heq
      cases heq
    · rw [hnarrow] at hr
      cases hr
      exact (hreport (Multivector.not_isGraded_sparse _)).symm
  exact ⟨by decide +kernel, hproduct, hadd, hinverse, ⟨m, hm, (hmap f le_rfl).symm.trans hm⟩,
    hforms (iff_of_false hgraded hgraded') narrow, hrequired, hnarrow, hnarrow', htext⟩

end Algebra

end GeometricAlgebra

import GeometricAlgebra.Outermorphism
import GeometricAlgebra.Proofs.Multivector.Forms
import GeometricAlgebra.Proofs.Scalars

set_option autoImplicit false

/-! # Outermorphisms that can be built

An outermorphism comes from one of five operations: from images, the identity, from columns, a
composition or an inverse. Each of them checks what it is given, so whatever is built is
`WellFormed`: both algebras exist, and the images are vectors of the target (`Built.wellFormed`).
Nothing is asked of the arithmetic, which may be another one in every step. -/

namespace GeometricAlgebra

open Blade

variable {α : Type}

namespace Outermorphism

/-- The outermorphisms that the operations of the library give. -/
inductive Built : Outermorphism α → Prop where
  | ofImages {domain target : Nat} {images : List (Multivector α)} {f : Outermorphism α}
      (h : Outermorphism.ofImages domain target images = .ok f) : Built f
  | identity {S : Scalars α} {n : Nat} {f : Outermorphism α}
      (h : Outermorphism.identity S n = .ok f) : Built f
  | ofColumns {S : Scalars α} {target : Nat} {columns : List (List α)} {f : Outermorphism α}
      (h : Outermorphism.ofColumns S target columns = .ok f) : Built f
  | comp {S : Scalars α} {f g h : Outermorphism α} (hf : Built f) (hg : Built g)
      (hcomp : f.comp S g = .ok h) : Built h
  | inverse {S : Scalars α} {f g : Outermorphism α} (hf : Built f)
      (hinverse : f.inverse S = .ok g) : Built g

/-- Both algebras exist, and the images of basis vectors are vectors of the target. -/
structure WellFormed (f : Outermorphism α) : Prop where
  domain_le : f.domain ≤ maxDimension
  target_le : f.target ≤ maxDimension
  vectors : ∀ image ∈ f.images, ∀ b ∈ image, b < 2 ^ f.target ∧ grade b = 1

/-! ## From images -/

theorem find?_bne_eq_none_iff {l : List Nat} {k : Nat} :
    l.find? (· != k) = none ↔ ∀ g ∈ l, g = k := by
  simp [List.find?_eq_none]

theorem validateImage_eq_ok_iff {target i : Nat} {image : Multivector α} :
    validateImage target i image = .ok () ↔
      target ≤ maxDimension ∧ image.InRange target ∧ ∀ t ∈ image.terms, grade t.1 = 1 := by
  have hgrades : image.validate target = .ok () →
      ((∀ g ∈ image.grades, g = 1) ↔ ∀ t ∈ image.terms, grade t.1 = 1) := by
    intro h
    obtain ⟨hn, hrange⟩ := (Multivector.validate_eq_ok_iff target image).mp h
    simp only [Multivector.mem_grades hn hrange]
    constructor
    · exact fun hall t ht => hall _ ⟨t, ht, rfl⟩
    · rintro hall g ⟨t, ht, rfl⟩
      exact hall t ht
  rw [validateImage, bind_eq_ok_iff, ← and_assoc, ← Multivector.validate_eq_ok_iff]
  constructor
  · rintro ⟨_, hvalid, h⟩
    refine ⟨hvalid, (hgrades hvalid).mp (find?_bne_eq_none_iff.mp ?_)⟩
    split at h
    · cases h
    · assumption
  · rintro ⟨hvalid, h⟩
    refine ⟨(), hvalid, ?_⟩
    rw [find?_bne_eq_none_iff.mpr ((hgrades hvalid).mpr h)]

/-- Which images are accepted, and what is made of them. -/
theorem ofImages_eq_ok_iff {domain target : Nat} {images : List (Multivector α)}
    {f : Outermorphism α} :
    Outermorphism.ofImages domain target images = .ok f ↔
      domain ≤ maxDimension ∧ target ≤ maxDimension ∧ images.length = domain ∧
        (∀ image ∈ images, image.InRange target ∧ ∀ t ∈ image.terms, grade t.1 = 1) ∧
        f = ⟨target, images.map Multivector.toTerms⟩ := by
  have hall : target ≤ maxDimension → ((images.zipIdx.forM fun (image : Multivector α × Nat) =>
        validateImage target image.2 image.1) = .ok () ↔
      ∀ image ∈ images, image.InRange target ∧ ∀ t ∈ image.terms, grade t.1 = 1) := by
    intro htarget
    rw [forM_eq_ok_iff]
    constructor
    · intro h image himage
      obtain ⟨i, hi⟩ := List.mem_iff_getElem?.mp himage
      exact (validateImage_eq_ok_iff.mp (h (image, i) (List.mem_zipIdx_iff_getElem?.mpr hi))).2
    · intro h image himage
      exact validateImage_eq_ok_iff.mpr ⟨htarget, h image.1 (List.fst_mem_of_mem_zipIdx himage)⟩
  simp only [Outermorphism.ofImages, bind_eq_ok_iff, ne_eq, ite_not]
  constructor
  · rintro ⟨⟨⟩, hdomain, ⟨⟩, htarget, h⟩
    rw [Multivector.validateDimension_eq_ok_iff] at hdomain htarget
    split at h
    · next hlength =>
        obtain ⟨⟨⟩, hchecks, h⟩ := bind_eq_ok_iff.mp h
        cases h
        exact ⟨hdomain, htarget, hlength, (hall htarget).mp hchecks, rfl⟩
    · cases h
  · rintro ⟨hdomain, htarget, hlength, himages, rfl⟩
    refine ⟨(), Multivector.validateDimension_eq_ok_iff.mpr hdomain, (),
      Multivector.validateDimension_eq_ok_iff.mpr htarget, ?_⟩
    rw [if_pos hlength, bind_eq_ok_iff]
    exact ⟨(), (hall htarget).mpr himages, rfl⟩

theorem wellFormed_of_ofImages {domain target : Nat} {images : List (Multivector α)}
    {f : Outermorphism α} (h : Outermorphism.ofImages domain target images = .ok f) :
    f.WellFormed := by
  obtain ⟨hdomain, htarget, hlength, himages, rfl⟩ := ofImages_eq_ok_iff.mp h
  refine ⟨by rwa [Outermorphism.domain, List.length_map, hlength], htarget, ?_⟩
  intro image himage b hb
  obtain ⟨mv, hmv, rfl⟩ := List.mem_map.mp himage
  obtain ⟨hrange, hgrade⟩ := himages mv hmv
  obtain ⟨v, hv⟩ := Terms.mem_iff_exists_getElem?.mp hb
  have hmem := (Multivector.getElem?_toTerms_iff htarget hrange).mp hv
  exact ⟨Multivector.lt_of_mem_terms htarget hrange hmem, hgrade _ hmem⟩

theorem domain_target_of_ofImages {domain target : Nat} {images : List (Multivector α)}
    {f : Outermorphism α} (h : Outermorphism.ofImages domain target images = .ok f) :
    f.domain = domain ∧ f.target = target := by
  obtain ⟨-, -, hlength, -, rfl⟩ := ofImages_eq_ok_iff.mp h
  exact ⟨by rw [Outermorphism.domain, List.length_map, hlength], rfl⟩

/-! ## The other operations -/

theorem identity_eq_ok_iff {S : Scalars α} {n : Nat} {f : Outermorphism α} :
    Outermorphism.identity S n = .ok f ↔ n ≤ maxDimension ∧
      f = ⟨n, (List.range n).map fun i => (∅ : Terms α).insert (ofVector i) S.one⟩ := by
  rw [Outermorphism.identity, bind_eq_ok_iff]
  constructor
  · rintro ⟨⟨⟩, hn, h⟩
    cases h
    exact ⟨Multivector.validateDimension_eq_ok_iff.mp hn, rfl⟩
  · rintro ⟨hn, rfl⟩
    exact ⟨(), Multivector.validateDimension_eq_ok_iff.mpr hn, rfl⟩

theorem wellFormed_of_identity {S : Scalars α} {n : Nat} {f : Outermorphism α}
    (h : Outermorphism.identity S n = .ok f) : f.WellFormed := by
  obtain ⟨hn, rfl⟩ := identity_eq_ok_iff.mp h
  refine ⟨by rwa [Outermorphism.domain, List.length_map, List.length_range], hn, ?_⟩
  intro image himage b hb
  obtain ⟨i, hi, rfl⟩ := List.mem_map.mp himage
  have hbi : b = ofVector i := by
    rcases Std.ExtTreeMap.mem_insert.mp hb with h | h
    · exact (Nat.compare_eq_eq.mp h).symm
    · exact absurd h Std.ExtTreeMap.not_mem_empty
  rw [hbi]
  exact ⟨ofVector_lt_iff.mpr (List.mem_range.mp hi), grade_ofVector i⟩

theorem wellFormed_of_ofColumns {S : Scalars α} {target : Nat} {columns : List (List α)}
    {f : Outermorphism α} (h : Outermorphism.ofColumns S target columns = .ok f) :
    f.WellFormed := by
  obtain ⟨images, -, h⟩ := bind_eq_ok_iff.mp h
  exact wellFormed_of_ofImages h

theorem wellFormed_of_comp {S : Scalars α} {f g h : Outermorphism α} (hcomp : f.comp S g = .ok h) :
    h.WellFormed := by
  rw [Outermorphism.comp] at hcomp
  split at hcomp
  · cases hcomp
  · obtain ⟨images, -, hcomp⟩ := bind_eq_ok_iff.mp hcomp
    exact wellFormed_of_ofImages hcomp

theorem wellFormed_of_inverse {S : Scalars α} {f g : Outermorphism α}
    (hinverse : f.inverse S = .ok g) : g.WellFormed := by
  obtain ⟨_, -, h⟩ := bind_eq_ok_iff.mp hinverse
  obtain ⟨rows, -, h⟩ := bind_eq_ok_iff.mp h
  exact wellFormed_of_ofColumns h

/-- **Every outermorphism that can be built is well-formed.** -/
theorem Built.wellFormed {f : Outermorphism α} (h : f.Built) : f.WellFormed := by
  cases h with
  | ofImages h => exact wellFormed_of_ofImages h
  | identity h => exact wellFormed_of_identity h
  | ofColumns h => exact wellFormed_of_ofColumns h
  | comp _ _ hcomp => exact wellFormed_of_comp hcomp
  | inverse _ hinverse => exact wellFormed_of_inverse hinverse

/-! ## A map to try theorems on -/

/-- Sends `e₀` to `2 e₀ + e₁`, `e₁` to `3 e₁ - e₂` and `e₂` to `e₀`. -/
def sample : Outermorphism Int :=
  ⟨3, [Multivector.ofBlades [(1, 2), (2, 1)], .ofBlades [(2, 3), (4, -1)],
    .ofBlades [(1, 1)]].map Multivector.toTerms⟩

theorem built_sample : sample.Built := by
  have h : Outermorphism.ofImages 3 3 [.ofBlades [(1, 2), (2, 1)], .ofBlades [(2, 3), (4, -1)],
      .ofBlades [(1, 1)]] = .ok sample := by cbv
  exact .ofImages h

theorem matrix_sample : sample.matrix .integers = [[2, 0, 1], [1, 3, 0], [0, -1, 0]] := by cbv

end Outermorphism

end GeometricAlgebra

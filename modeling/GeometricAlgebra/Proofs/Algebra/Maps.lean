import GeometricAlgebra.Proofs.Algebra.Canonical
import GeometricAlgebra.Proofs.Multivector.Lookup

set_option autoImplicit false

/-! # Which maps an algebra applies

An algebra applies a map after it has compared the target of the map with its own dimension. The
operand is checked by the map, which has another algebra in mind, the one it goes from. So of the
maps into an algebra those that also go from it take exactly its multivectors, and no others do: a
map from a larger algebra takes blades that the algebra does not have, and a map from a smaller one
refuses blades that it has. Basis vectors are enough to tell (`validate_ofVector`). -/

namespace GeometricAlgebra

open Blade

variable {α : Type}

namespace Multivector

/-- The algebras that have a basis vector are those of a larger dimension than its number. -/
theorem validate_ofVector {i d : Nat} (hi : i < maxDimension) (hd : d ≤ maxDimension) (v : α) :
    (ofBlade (ofVector i) v).validate d = .ok () ↔ i < d := by
  have hlt : ofVector i < 2 ^ maxDimension := ofVector_lt_iff.mpr hi
  rw [validate_eq_ok_iff, and_iff_right hd,
    inRange_iff le_rfl (inRange_ofBlade le_rfl hlt v) hd, terms_ofBlade hlt]
  simp only [List.mem_singleton, forall_eq, ofVector_lt_iff]

end Multivector

namespace Algebra

variable {A : Algebra α} {f : Outermorphism α} {a : Multivector α}

/-! ## What is accepted -/

theorem map_eq_ok_iff :
    (∃ m, A.map f a = .ok m) ↔ f.target = A.dimension ∧ a.validate f.domain = .ok () := by
  rw [map]
  split
  · next hne =>
      refine iff_of_false ?_ fun h => hne h.1
      rintro ⟨_, h⟩
      cases h
  · next heq =>
      rw [and_iff_right (not_not.mp heq)]
      constructor
      · rintro ⟨m, hm⟩
        obtain ⟨⟨⟩, hvalid, -⟩ := bind_eq_ok_iff.mp hm
        exact hvalid
      · exact fun hvalid => ⟨_, bind_eq_ok_iff.mpr ⟨(), hvalid, rfl⟩⟩

section Domain

variable (hf : f.domain ≤ maxDimension)

include hf

/-- A map into the algebra takes nothing from outside iff its domain is not larger. -/
theorem valid_of_map_iff (htarget : f.target = A.dimension) :
    (∀ a m, A.map f a = .ok m → A.validate a = .ok ()) ↔ f.domain ≤ A.dimension := by
  constructor
  · intro h
    by_contra hlt
    -- the first vector that the algebra does not have
    have hn : A.dimension < maxDimension := (not_le.mp hlt).trans_le hf
    obtain ⟨m, hm⟩ := map_eq_ok_iff.mpr ⟨htarget,
      (Multivector.validate_ofVector hn hf A.scalars.one).mpr (not_le.mp hlt)⟩
    exact lt_irrefl _ ((Multivector.validate_ofVector hn A.dimension_le _).mp (h _ m hm))
  · intro hle a m hm
    have hvalid := (map_eq_ok_iff.mp ⟨m, hm⟩).2
    exact validate_eq_ok_iff.mpr
      (((Multivector.validate_eq_ok_iff _ _).mp hvalid).2.mono hle A.dimension_le)

/-- A map into the algebra takes all that the algebra has iff its domain is not smaller. -/
theorem map_of_valid_iff (htarget : f.target = A.dimension) :
    (∀ a, A.validate a = .ok () → ∃ m, A.map f a = .ok m) ↔ A.dimension ≤ f.domain := by
  constructor
  · intro h
    by_contra hlt
    -- the first vector that the map does not know
    have hn : f.domain < maxDimension := (not_le.mp hlt).trans_le A.dimension_le
    have hvalid := (Multivector.validate_ofVector hn A.dimension_le A.scalars.one).mpr
      (not_le.mp hlt)
    exact lt_irrefl _
      ((Multivector.validate_ofVector hn hf _).mp (map_eq_ok_iff.mp (h _ hvalid)).2)
  · intro hle a ha
    refine map_eq_ok_iff.mpr ⟨htarget, (Multivector.validate_eq_ok_iff _ _).mpr ⟨hf, ?_⟩⟩
    exact (validate_eq_ok_iff.mp ha).mono hle hf

end Domain

/-- **A map is applied to what belongs to its domain, which need not be the algebra.** The algebra
    applies a map iff it goes into the algebra and the operand belongs to the domain of the map, and
    what it gives belongs to the algebra. So a map is refused or applied as is right for a map of
    the algebra into itself, unless it goes into the algebra from another dimension: then, and only
    then, it takes blades that the algebra does not have or refuses blades that it has. -/
theorem map_takes_domain (A : Algebra α) {f : Outermorphism α} (hf : f.Built) :
    (∀ a, (∃ m, A.map f a = .ok m) ↔ f.target = A.dimension ∧ a.validate f.domain = .ok ()) ∧
    (∀ a m, A.map f a = .ok m → A.validate m = .ok ()) ∧
    ((∀ a, (∃ m, A.map f a = .ok m) ↔
        f.domain = A.dimension ∧ f.target = A.dimension ∧ A.validate a = .ok ()) ↔
      (f.target = A.dimension → f.domain = A.dimension)) ∧
    (f.target = A.dimension →
      ((∀ a m, A.map f a = .ok m → A.validate a = .ok ()) ↔ f.domain ≤ A.dimension) ∧
      ((∀ a, A.validate a = .ok () → ∃ m, A.map f a = .ok m) ↔ A.dimension ≤ f.domain)) := by
  have hdomain := hf.wellFormed.domain_le
  refine ⟨fun a => map_eq_ok_iff, fun a m hm => (canonical_of_map hf hm).valid, ⟨?_, ?_⟩,
    fun htarget => ⟨valid_of_map_iff hdomain htarget, map_of_valid_iff hdomain htarget⟩⟩
  · -- the scalar belongs to every algebra, so it is accepted
    intro h htarget
    have hvalid : (Multivector.scalar A.scalars.one).validate f.domain = .ok () :=
      (Multivector.validate_eq_ok_iff _ _).mpr ⟨hdomain, trivial⟩
    exact ((h _).mp (map_eq_ok_iff.mpr ⟨htarget, hvalid⟩)).1
  · intro h a
    rw [map_eq_ok_iff]
    constructor
    · rintro ⟨htarget, hvalid⟩
      have heq := h htarget
      rw [heq] at hvalid
      exact ⟨heq, htarget, hvalid⟩
    · rintro ⟨heq, htarget, hvalid⟩
      rw [← heq] at htarget
      refine ⟨htarget.trans heq, ?_⟩
      rw [heq]
      exact hvalid

/-- Maps into an algebra with three vectors, from one with four and from one with two: the first
    takes `e₃`, and the second refuses `e₂`. -/
theorem map_takes_domain_mixed :
    let A : Algebra Int := ⟨.mixed, .integers, .auto⟩
    let wide : Outermorphism Int :=
      ⟨3, [Multivector.vector [1], .vector [0, 1], .vector [0, 0, 1], .vector [1, 1, 1]].map
        Multivector.toTerms⟩
    let narrow : Outermorphism Int :=
      ⟨3, [Multivector.vector [1], .vector [0, 1]].map Multivector.toTerms⟩
    (∃ m, A.map wide (.ofBlades [(8, 5)]) = .ok m ∧ A.validate m = .ok ()) ∧
      ¬ A.validate (.ofBlades [(8, 5)]) = .ok () ∧
      (¬ ∃ m, A.map narrow (.ofBlades [(4, 5)]) = .ok m) ∧
      A.validate (.ofBlades [(4, 5)]) = .ok () := by
  intro A wide narrow
  have hwide : wide.Built := by
    have h : Outermorphism.ofImages 4 3
        [.vector [1], .vector [0, 1], .vector [0, 0, 1], .vector [1, 1, 1]] = .ok wide := by
      unfold wide
      cbv
    exact .ofImages h
  have hnarrow : narrow.Built := by
    have h : Outermorphism.ofImages 2 3 [.vector [1], .vector [0, 1]] = .ok narrow := by
      unfold narrow
      cbv
    exact .ofImages h
  obtain ⟨hok, hvalid, -⟩ := map_takes_domain A hwide
  obtain ⟨hok', -⟩ := map_takes_domain A hnarrow
  obtain ⟨m, hm⟩ := (hok (.ofBlades [(8, 5)])).mpr ⟨rfl, by cbv⟩
  have houtside : A.validate (.ofBlades [(8, 5)]) = .error (.dimensionMismatch 3 4) := by cbv
  have hrefused : (Multivector.ofBlades [(4, (5 : Int))]).validate narrow.domain
      = .error (.dimensionMismatch 2 3) := by cbv
  refine ⟨⟨m, hm, hvalid _ m hm⟩, ?_, ?_, by cbv⟩
  · rw [houtside]
    intro h
    cases h
  · rw [hok', hrefused]
    rintro ⟨-, h⟩
    cases h

end Algebra

end GeometricAlgebra

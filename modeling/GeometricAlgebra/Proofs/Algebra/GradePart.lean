import GeometricAlgebra.Proofs.Algebra.Families
import GeometricAlgebra.Proofs.BladeTree.Grades
import GeometricAlgebra.Proofs.Multivector.Updates

set_option autoImplicit false

/-! # Grade parts

A grade part is what the walk over grades finds, in the form of a sum. Nothing is added up on the
way, so nothing is asked of the scalars: the terms keep their coefficients, and those that count as
zero are dropped. -/

namespace GeometricAlgebra

open Blade BladeTree

namespace Algebra

variable {α : Type} {A : Algebra α} {a : Multivector α}

/-- The grade part holds the terms of the chosen grades that do not count as zero. -/
theorem exists_gradePart (ha : a.InRange A.dimension) (grades : List Nat) :
    ∃ m, A.gradePart a grades = .ok m ∧ m.InRange A.dimension ∧
      ∀ b v, (b, v) ∈ m.terms
        ↔ (b, v) ∈ a.terms ∧ grade b ∈ grades ∧ A.scalars.isZero v = false := by
  have hn := A.dimension_le
  have hmem : ∀ {t}, t ∈ (termsOfGrades A.dimension grades a).1
      ↔ t ∈ a.terms ∧ grade t.1 ∈ grades := by
    intro t
    rw [mem_termsOfGrades (ha.mono hn le_rfl)]
    exact and_congr_right fun ht => and_iff_right (Multivector.lt_of_mem_terms hn ha ht)
  have hnodup : ((termsOfGrades A.dimension grades a).1.map Prod.fst).Nodup :=
    List.pairwise_map.mpr (pairwise_termsOfGrades.imp Nat.ne_of_lt)
  have hwithin : Terms.Within A.dimension
      (.ofList (termsOfGrades A.dimension grades a).1 : Terms α) :=
    Terms.within_ofList fun t ht => Multivector.lt_of_mem_terms hn ha (hmem.mp ht).1
  refine ⟨Terms.compact A.scalars (.ofList (termsOfGrades A.dimension grades a).1), ?_,
    Terms.inRange_compact hn hwithin, fun b v => ?_⟩
  · rw [gradePart, validate_eq_ok_iff.mpr ha]
    rfl
  · rw [Terms.mem_terms_compact hn hwithin, Terms.getElem?_ofList_iff hnodup, hmem, and_assoc]

end Algebra

/-- **Grades select exactly their terms.** In an algebra of any dimension the walk over grades finds
    each term of a multivector that belongs to it and has one of the grades, once, with the blades
    ascending; grades may be repeated or too large for any blade. So the part of a multivector with
    these grades has its terms of these grades with their coefficients, but for those that count as
    zero. -/
theorem gradePart_exact {α : Type} (grades : List Nat) :
    (∀ (mv : Multivector α) (n : Nat), mv.validate maxDimension = .ok () →
      ((termsOfGrades n grades mv).1.Pairwise fun s t => s.1 < t.1) ∧
      ∀ b v, (b, v) ∈ (termsOfGrades n grades mv).1
        ↔ (b, v) ∈ mv.terms ∧ b < 2 ^ n ∧ grade b ∈ grades) ∧
    ∀ (A : Algebra α) (a : Multivector α), A.validate a = .ok () →
      ∃ m, A.gradePart a grades = .ok m ∧ A.validate m = .ok () ∧
        (m.terms.map Prod.fst).Nodup ∧
        ∀ b v, (b, v) ∈ m.terms
          ↔ (b, v) ∈ a.terms ∧ grade b ∈ grades ∧ A.scalars.isZero v = false := by
  refine ⟨fun mv n hmv => ⟨pairwise_termsOfGrades, fun b v => ?_⟩, fun A a ha => ?_⟩
  · exact mem_termsOfGrades ((Multivector.validate_eq_ok_iff _ mv).mp hmv).2
  · obtain ⟨m, hm, hrange, hterms⟩ :=
      Algebra.exists_gradePart (Algebra.validate_eq_ok_iff.mp ha) grades
    exact ⟨m, hm, Algebra.validate_eq_ok_iff.mpr hrange,
      Multivector.nodup_terms A.dimension_le hrange, hterms⟩

/-- Grades out of order, twice and above all blades; a term outside the three dimensions that are
    asked for, and one that is zero. -/
theorem gradePart_exact_repeated :
    let grades := [2, 0, 2, 70]
    let mv : Multivector Int := .ofBlades [(0, 3), (1, 2), (3, 0), (6, 5), (7, -1), (9, 4)]
    let a : Multivector Int := .ofBlades [(0, 3), (1, 2), (3, 0), (6, 5), (7, -1)]
    let A : Algebra Int := ⟨.mixed, .integers, .auto⟩
    (mv.validate maxDimension = .ok () ∧ (6, 5) ∈ (termsOfGrades 3 grades mv).1 ∧
      (9, 4) ∉ (termsOfGrades 3 grades mv).1) ∧
    A.validate a = .ok () ∧ ∃ m, A.gradePart a grades = .ok m ∧ (6, 5) ∈ m.terms ∧
      (3, 0) ∉ m.terms ∧ (1, 2) ∉ m.terms := by
  intro grades mv a A
  have hmv : mv.validate maxDimension = .ok () := by cbv
  have ha : A.validate a = .ok () := by cbv
  obtain ⟨hfound, hpart⟩ := gradePart_exact (α := Int) grades
  obtain ⟨-, hmem⟩ := hfound mv 3 hmv
  obtain ⟨m, hm, -, -, hterms⟩ := hpart A a ha
  refine ⟨⟨hmv, (hmem 6 5).mpr ?_, fun h => ?_⟩, ha, m, hm, (hterms 6 5).mpr ?_, fun h => ?_,
    fun h => ?_⟩
  · decide +kernel
  · exact absurd ((hmem 9 4).mp h).2.1 (by decide)
  · decide +kernel
  · exact absurd ((hterms 3 0).mp h).2.2 (by decide)
  · exact absurd ((hterms 1 2).mp h).2.1 (by decide +kernel)

end GeometricAlgebra

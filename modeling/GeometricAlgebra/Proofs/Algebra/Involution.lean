import GeometricAlgebra.Proofs.Algebra.Yields
import GeometricAlgebra.Proofs.Product.Involution

set_option autoImplicit false

/-! # The unary operations

Reversing, negating and conjugating multiply the coefficient of every blade by a sign that depends
on its grade (`mapGradeSign_spec`). What the signs do to products of blades they do to products of
multivectors: the reverse and the conjugate exchange the factors, also those of a contraction, which
becomes the other one, and negating vectors keeps their order. As every sign is its own inverse,
each of the operations undoes itself. -/

namespace GeometricAlgebra

open Blade Product Grade

namespace Algebra

section Ring

variable {α : Type} [CommRing α] {A : Algebra α} {a b : Multivector α} {x y : Nat → α}
  {s : Nat → Int} {k : Product}

/-- The sign of every blade, from that of its grade. -/
def gradeSigns (s : Nat → Int) (b : Nat) : α := (s (grade b) : α)

theorem gradeSigns_mul_self (hs : ∀ g, s g * s g = 1) (x : Nat → α) :
    gradeSigns s * (gradeSigns s * x) = x := by
  funext b
  rw [Pi.mul_apply, Pi.mul_apply, gradeSigns, ← mul_assoc, ← Int.cast_mul, hs, Int.cast_one,
    one_mul]

/-- All blades of one grade have one sign. -/
theorem gradeSigns_mul_of_grade {n k : Nat} (hx : OfGrade n k x) :
    gradeSigns s * x = (s k : α) • x := by
  funext b
  rw [Pi.mul_apply, Pi.smul_apply, smul_eq_mul, gradeSigns]
  by_cases hb : x b = 0
  · rw [hb, mul_zero, mul_zero]
  · rw [(hx b hb).2]

/-- Signs that respect the product of blades respect that of families. -/
theorem gradeSigns_mul_convolve
    (h : ∀ i j, s (grade (i ^^^ j)) * sign k A.signature i j
      = s (grade i) * s (grade j) * sign k A.signature i j) (x y : Nat → α) :
    gradeSigns s * convolve A.dimension (A.signs k) x y
      = convolve A.dimension (A.signs k) (gradeSigns s * x) (gradeSigns s * y) := by
  refine mul_convolve (fun i j => ?_) x y
  simp only [gradeSigns, signs, ← Int.cast_mul, h]

/-- Signs that exchange the factors of a product of blades exchange those of families. -/
theorem gradeSigns_mul_convolve_mirror
    (h : ∀ i j, s (grade (i ^^^ j)) * sign k A.signature i j
      = s (grade i) * s (grade j) * sign k.mirror A.signature j i) (x y : Nat → α) :
    gradeSigns s * convolve A.dimension (A.signs k) x y
      = convolve A.dimension (A.signs k.mirror) (gradeSigns s * y) (gradeSigns s * x) := by
  rw [convolve_swap (A.signs k.mirror)]
  refine mul_convolve (fun i j => ?_) x y
  simp only [gradeSigns, signs, ← Int.cast_mul, h]

section Operations

variable (hS : A.scalars.IsRing)

include hS

theorem mapGradeSign_spec (hs : ∀ g, s g * s g = 1) (ha : a.HasCoeffs A.dimension x) :
    A.Yields (A.mapGradeSign s a) (gradeSigns s * x) := by
  have hcases : ∀ g, s g = 0 ∨ s g = 1 ∨ s g = -1 := fun g =>
    Or.inr (mul_self_eq_one_iff.mp (hs g))
  refine ⟨Terms.compact A.scalars (a.terms.foldl (fun sum t =>
      Terms.addSigned A.scalars sum t.1 (s (grade t.1)) t.2) ∅), ?_,
    Multivector.represents_compact fun r => ?_⟩
  · rw [mapGradeSign, validate_eq_ok_iff.mpr ha.inRange]
    rfl
  · rw [Terms.coeff_foldl (fun t _ sum => Terms.coeff_addSigned hS sum t.1 r (hcases _) t.2),
      Terms.coeff_empty, zero_add,
      Multivector.sum_terms A.dimension_le ha.inRange
        (fun b v => if b = r then (s (grade b) : α) * v else 0) (fun b => by simp),
      Finset.sum_ite_eq']
    simp only [Finset.mem_range, Pi.mul_apply, gradeSigns]
    split
    · next hr => rw [ha.coeff_eq r hr]
    · rfl

variable (hE : A.scalars.IsExact)

include hE

/-- Doing an operation twice keeps the coefficients that are not zero. -/
theorem mapGradeSign_mapGradeSign (hs : ∀ g, s g * s g = 1) (ha : a.InRange A.dimension) :
    ∃ m, (do A.mapGradeSign s (← A.mapGradeSign s a)) = .ok m ∧ (m.terms.map Prod.fst).Nodup ∧
      ∀ b v, (b, v) ∈ m.terms ↔ (b, v) ∈ a.terms ∧ v ≠ 0 := by
  have htwice := (mapGradeSign_spec hS hs ha.hasCoeffs).bind hE fun _ hm =>
    mapGradeSign_spec hS hs hm
  rw [gradeSigns_mul_self hs] at htwice
  exact htwice.mem_terms hE ha

theorem mapGradeSign_product (hs : ∀ g, s g * s g = 1)
    (h : ∀ i j, s (grade (i ^^^ j)) * sign k A.signature i j
      = s (grade i) * s (grade j) * sign k A.signature i j)
    (ha : a.HasCoeffs A.dimension x) (hb : b.HasCoeffs A.dimension y) :
    ∃ m, (do A.mapGradeSign s (← A.product k a b)) = .ok m ∧
      (do A.product k (← A.mapGradeSign s a) (← A.mapGradeSign s b)) = .ok m := by
  have hleft := (yields_product hS hE k ha hb).bind hE fun _ hm => mapGradeSign_spec hS hs hm
  rw [gradeSigns_mul_convolve h] at hleft
  exact hleft.eq_ok hE ((mapGradeSign_spec hS hs ha).product hS hE k (mapGradeSign_spec hS hs hb))

theorem mapGradeSign_product_mirror (hs : ∀ g, s g * s g = 1)
    (h : ∀ i j, s (grade (i ^^^ j)) * sign k A.signature i j
      = s (grade i) * s (grade j) * sign k.mirror A.signature j i)
    (ha : a.HasCoeffs A.dimension x) (hb : b.HasCoeffs A.dimension y) :
    ∃ m, (do A.mapGradeSign s (← A.product k a b)) = .ok m ∧
      (do A.product k.mirror (← A.mapGradeSign s b) (← A.mapGradeSign s a)) = .ok m := by
  have hleft := (yields_product hS hE k ha hb).bind hE fun _ hm => mapGradeSign_spec hS hs hm
  rw [gradeSigns_mul_convolve_mirror h] at hleft
  exact hleft.eq_ok hE
    ((mapGradeSign_spec hS hs hb).product hS hE k.mirror (mapGradeSign_spec hS hs ha))

/-- One contraction is the reverse of the other one of the reverses. -/
theorem product_right_eq_reverse (ha : a.HasCoeffs A.dimension x) (hb : b.HasCoeffs A.dimension y) :
    ∃ m, A.product .right a b = .ok m ∧
      (do A.reverse (← A.product .left (← A.reverse b) (← A.reverse a))) = .ok m := by
  have hreverse := fun {c : Multivector α} {z} (hc : c.HasCoeffs A.dimension z) =>
    mapGradeSign_spec hS reverseSign_mul_self hc
  have hright := (hreverse hb).bind hE fun _ hrb => (hreverse ha).bind hE fun _ hra =>
    (yields_product hS hE .left hrb hra).bind hE fun _ hm => hreverse hm
  rw [gradeSigns_mul_convolve_mirror (reverseSign_mul_sign .left A.signature),
    gradeSigns_mul_self reverseSign_mul_self, gradeSigns_mul_self reverseSign_mul_self] at hright
  exact (yields_product hS hE .right ha hb).eq_ok hE hright

end Operations

end Ring

/-- **The unary operations are involutions that respect products.** The reverse and the Clifford
    conjugate of a geometric or an outer product are the products of those of the factors in the
    opposite order, and its grade involution is the product of theirs in the same order. The right
    contraction is the reverse of the left contraction of the reverses, and each operation undoes
    itself, but that zeros are dropped. -/
theorem reverse_involution_conjugate {α : Type} [CommRing α] {A : Algebra α}
    (hS : A.scalars.IsRing) (hE : A.scalars.IsExact) :
    (∀ a b, A.validate a = .ok () → A.validate b = .ok () →
      (∀ k, k = .geometric ∨ k = .outer →
        (∃ m, (do A.reverse (← A.product k a b)) = .ok m ∧
          (do A.product k (← A.reverse b) (← A.reverse a)) = .ok m) ∧
        (∃ m, (do A.cliffordConjugate (← A.product k a b)) = .ok m ∧
          (do A.product k (← A.cliffordConjugate b) (← A.cliffordConjugate a)) = .ok m) ∧
        ∃ m, (do A.gradeInvolution (← A.product k a b)) = .ok m ∧
          (do A.product k (← A.gradeInvolution a) (← A.gradeInvolution b)) = .ok m) ∧
      ∃ m, A.product .right a b = .ok m ∧
        (do A.reverse (← A.product .left (← A.reverse b) (← A.reverse a))) = .ok m) ∧
    ∀ a, A.validate a = .ok () → ∀ f ∈ [A.reverse, A.cliffordConjugate, A.gradeInvolution],
      ∃ m, (do f (← f a)) = .ok m ∧ (m.terms.map Prod.fst).Nodup ∧
        ∀ b v, (b, v) ∈ m.terms ↔ (b, v) ∈ a.terms ∧ v ≠ 0 := by
  refine ⟨fun a b ha hb => ⟨fun k hk => ?_, ?_⟩, fun a ha f hf => ?_⟩
  · have hx := (validate_eq_ok_iff.mp ha).hasCoeffs
    have hy := (validate_eq_ok_iff.mp hb).hasCoeffs
    have hmirror : k.mirror = k := by rcases hk with rfl | rfl <;> rfl
    have hreverse := mapGradeSign_product_mirror hS hE reverseSign_mul_self
      (reverseSign_mul_sign k A.signature) hx hy
    have hconjugate := mapGradeSign_product_mirror hS hE conjugateSign_mul_self
      (conjugateSign_mul_sign k A.signature) hx hy
    rw [hmirror] at hreverse hconjugate
    exact ⟨hreverse, hconjugate, mapGradeSign_product hS hE involutionSign_mul_self
      (involutionSign_mul_sign k A.signature) hx hy⟩
  · exact product_right_eq_reverse hS hE (validate_eq_ok_iff.mp ha).hasCoeffs
      (validate_eq_ok_iff.mp hb).hasCoeffs
  · have hrange := validate_eq_ok_iff.mp ha
    simp only [List.mem_cons, List.not_mem_nil, or_false] at hf
    rcases hf with rfl | rfl | rfl
    · exact mapGradeSign_mapGradeSign hS hE reverseSign_mul_self hrange
    · exact mapGradeSign_mapGradeSign hS hE conjugateSign_mul_self hrange
    · exact mapGradeSign_mapGradeSign hS hE involutionSign_mul_self hrange

/-- Two multivectors with blades of all grades, in different forms. -/
theorem reverse_involution_conjugate_mixed :
    let A : Algebra Int := ⟨.mixed, .integers, .tree⟩
    let a : Multivector Int := .ofBlades [(0, 3), (1, 2), (6, 5), (7, -1)]
    let b : Multivector Int := .ofGrades [(1, 0, 5), (2, 2, 7)]
    (∃ m, (do A.reverse (← A.product .geometric a b)) = .ok m ∧
      (do A.product .geometric (← A.reverse b) (← A.reverse a)) = .ok m) ∧
    (∃ m, (do A.gradeInvolution (← A.product .outer a b)) = .ok m ∧
      (do A.product .outer (← A.gradeInvolution a) (← A.gradeInvolution b)) = .ok m) ∧
    (∃ m, A.product .right a b = .ok m ∧
      (do A.reverse (← A.product .left (← A.reverse b) (← A.reverse a))) = .ok m) ∧
    ∃ m, (do A.cliffordConjugate (← A.cliffordConjugate a)) = .ok m ∧ (6, 5) ∈ m.terms := by
  intro A a b
  have ha : A.validate a = .ok () := by cbv
  obtain ⟨hproduct, htwice⟩ := reverse_involution_conjugate (A := A) Scalars.isRing_integers
    Scalars.isExact_integers
  obtain ⟨hlaws, hright⟩ := hproduct a b ha (by cbv)
  obtain ⟨m, hm, -, hterms⟩ := htwice a ha A.cliffordConjugate (by simp)
  refine ⟨(hlaws .geometric (Or.inl rfl)).1, (hlaws .outer (Or.inr rfl)).2.2, hright, m, hm, ?_⟩
  rw [hterms]
  decide +kernel

end Algebra

end GeometricAlgebra

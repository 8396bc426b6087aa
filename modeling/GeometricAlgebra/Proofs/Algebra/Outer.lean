import GeometricAlgebra.Proofs.Algebra.Brackets
import GeometricAlgebra.Proofs.Multivector.Wedge

set_option autoImplicit false

/-! # The outer product

The outer product of two multivectors is that of their families of coefficients, where no square
counts. So it is associative, exchanging the factors gives a sign that their grades decide
(`product_outer_swap`), a vector with itself gives nothing, and all algebras with the same scalars
and as many vectors agree on it (`product_outer_eq`). It is also what `Terms.wedge` makes of the
terms of its operands (`toTerms_eq_wedge`). -/

namespace GeometricAlgebra

open Blade Product

namespace Algebra

section Ring

variable {α : Type} [CommRing α] {A : Algebra α} {a b : Multivector α} {x y : Nat → α}
  (hS : A.scalars.IsRing) (hE : A.scalars.IsExact)

include hS hE

/-- **Exchanging the factors gives a sign, which their grades decide.** -/
theorem product_outer_swap {r s : Nat} (ha : a.HasCoeffs A.dimension x)
    (hb : b.HasCoeffs A.dimension y) (hx : OfGrade A.dimension r x) (hy : OfGrade A.dimension s y) :
    ∃ m, A.product .outer a b = .ok m ∧
      (do A.scale (← A.product .outer b a) ((-1) ^ (r * s))) = .ok m := by
  have hab : A.Yields (A.product .outer a b) (outerProduct x y) := outer_spec hS hE ha hb
  have hba : A.Yields (A.product .outer b a) (outerProduct y x) := outer_spec hS hE hb ha
  have hscaled := hba.scale hS hE ((-1) ^ (r * s))
  rw [mul_comm r s, ← outerProduct_swap hy hx] at hscaled
  rw [mul_comm r s]
  exact hab.eq_ok hE hscaled

theorem product_outer_self (ha : a.HasCoeffs A.dimension x) (hx : OfGrade A.dimension 1 x) :
    A.product .outer a a = .ok .zero := by
  obtain ⟨m, hm, rm⟩ := outer_spec hS hE ha ha
  rw [outerProduct_self hx] at rm
  rw [hm, rm.unique hE.isZero_zero Multivector.represents_zero]

/-- The squares of the vectors do not matter. -/
theorem product_outer_eq {B : Algebra α} (hscalars : B.scalars = A.scalars)
    (hdimension : B.dimension = A.dimension) (ha : a.HasCoeffs A.dimension x)
    (hb : b.HasCoeffs A.dimension y) : B.product .outer a b = A.product .outer a b := by
  obtain ⟨m, hm, rm⟩ := outer_spec hS hE ha hb
  rw [← hscalars] at hS hE
  rw [← hdimension] at ha hb
  obtain ⟨m', hm', rm'⟩ := outer_spec hS hE ha hb
  rw [hscalars, hdimension] at rm'
  rw [hscalars] at hE
  rw [hm, hm', rm'.unique hE.isZero_zero rm]

/-- **The terms of an outer product are the outer product of the terms.** -/
theorem toTerms_eq_wedge (ha : a.InRange A.dimension) (hb : b.InRange A.dimension)
    {m : Multivector α} (hm : m.Represents A.scalars A.dimension
      (outerProduct (Terms.coeff a.toTerms) (Terms.coeff b.toTerms))) :
    m.toTerms = Terms.wedge A.scalars a.toTerms b.toTerms := by
  have hn := A.dimension_le
  have hout : ∀ {c : Multivector α}, c.InRange A.dimension → ∀ r, 2 ^ A.dimension ≤ r →
      Terms.coeff c.toTerms r = 0 := fun hc r hr => by
    rw [Multivector.coeff_toTerms hn hc, if_neg (not_lt.mpr hr)]
  apply Std.ExtTreeMap.ext_getElem?
  intro r
  refine Option.ext fun v => ?_
  rw [Multivector.getElem?_toTerms_iff hn (hm.hasCoeffs hE hn).inRange, hm.mem_terms_iff hE hn,
    Terms.getElem?_wedge_iff hS hE, and_iff_right_iff_imp]
  rintro ⟨hv, hne⟩
  by_contra hr
  exact hne (hv.trans (outerProduct_eq_zero (hout ha) (hout hb) (not_lt.mp hr)))

end Ring

/-- **The outer product is associative, graded commutative and free of the metric.** Its factors may
    be exchanged with the sign `(-1) ^ (r * s)` where they have grades `r` and `s`, and a vector
    with itself gives nothing. In every algebra of the dimension it is the same multivector, with
    the terms that `Terms.wedge` finds. -/
theorem product_outer_graded {α : Type} [CommRing α] {A : Algebra α} (hS : A.scalars.IsRing)
    (hE : A.scalars.IsExact) :
    (∀ a b c, A.validate a = .ok () → A.validate b = .ok () → A.validate c = .ok () →
      ∃ m, (do A.product .outer (← A.product .outer a b) c) = .ok m ∧
        (do A.product .outer a (← A.product .outer b c)) = .ok m) ∧
    (∀ a b r s, A.validate a = .ok () → A.validate b = .ok () →
      (∀ t ∈ a.terms, grade t.1 = r) → (∀ t ∈ b.terms, grade t.1 = s) →
      ∃ m, A.product .outer a b = .ok m ∧
        (do A.scale (← A.product .outer b a) ((-1) ^ (r * s))) = .ok m) ∧
    (∀ v, A.validate v = .ok () → (∀ t ∈ v.terms, grade t.1 = 1) →
      A.product .outer v v = .ok .zero) ∧
    ∀ a b, A.validate a = .ok () → A.validate b = .ok () →
      ∃ m, A.product .outer a b = .ok m ∧
        (∀ B : Algebra α, B.scalars = A.scalars → B.dimension = A.dimension →
          B.product .outer a b = .ok m) ∧
        m.toTerms = Terms.wedge A.scalars a.toTerms b.toTerms := by
  have hn := A.dimension_le
  refine ⟨fun a b c ha hb hc => ?_, fun a b r s ha hb hr hs => ?_, fun v hv hgrade => ?_,
    fun a b ha hb => ?_⟩
  · exact product_rebracket hS hE rebrackets_outer (validate_eq_ok_iff.mp ha).hasCoeffs
      (validate_eq_ok_iff.mp hb).hasCoeffs (validate_eq_ok_iff.mp hc).hasCoeffs
  · rw [validate_eq_ok_iff] at ha hb
    exact product_outer_swap hS hE (ha.hasCoeffs_toTerms hn) (hb.hasCoeffs_toTerms hn)
      (ha.ofGrade_toTerms hn hr) (hb.ofGrade_toTerms hn hs)
  · rw [validate_eq_ok_iff] at hv
    exact product_outer_self hS hE (hv.hasCoeffs_toTerms hn) (hv.ofGrade_toTerms hn hgrade)
  · rw [validate_eq_ok_iff] at ha hb
    have hx := ha.hasCoeffs_toTerms hn
    have hy := hb.hasCoeffs_toTerms hn
    obtain ⟨m, hm, rm⟩ := outer_spec hS hE hx hy
    refine ⟨m, hm, fun B hscalars hdimension => ?_, toTerms_eq_wedge hS hE ha hb rm⟩
    rw [product_outer_eq hS hE hscalars hdimension hx hy, hm]

/-- Multivectors with shared vectors of every square, vectors and a bivector among them, and the
    algebra with the same vectors that all square to `1`. -/
theorem product_outer_graded_mixed :
    let A : Algebra Int := ⟨.mixed, .integers, .auto⟩
    let B : Algebra Int := ⟨⟨3, 0, 0, by decide, by decide, by decide, by decide⟩, .integers, .tree⟩
    let a : Multivector Int := .ofBlades [(0, 3), (1, 2), (6, 5)]
    let v : Multivector Int := .vector [1, -1, 4]
    let w : Multivector Int := .bivector [5, 0, 7]
    (∃ m, (do A.product .outer (← A.product .outer a v) a) = .ok m ∧
      (do A.product .outer a (← A.product .outer v a)) = .ok m) ∧
    (∃ m, A.product .outer v w = .ok m ∧
      (do A.scale (← A.product .outer w v) ((-1) ^ (1 * 2))) = .ok m) ∧
    A.product .outer v v = .ok .zero ∧
    ∃ m, A.product .outer a v = .ok m ∧ B.product .outer a v = .ok m ∧
      m.toTerms = Terms.wedge .integers a.toTerms v.toTerms := by
  intro A B a v w
  obtain ⟨hassoc, hswap, hself, hwedge⟩ := product_outer_graded (A := A) Scalars.isRing_integers
    Scalars.isExact_integers
  have ha : A.validate a = .ok () := by cbv
  have hv : A.validate v = .ok () := by cbv
  have hv1 : ∀ t ∈ v.terms, grade t.1 = 1 := by decide +kernel
  obtain ⟨m, hm, hB, hterms⟩ := hwedge a v ha hv
  exact ⟨hassoc a v a ha hv ha, hswap v w 1 2 hv (by cbv) hv1 (by decide +kernel), hself v hv hv1,
    m, hm, hB B rfl rfl, hterms⟩

end Algebra

end GeometricAlgebra

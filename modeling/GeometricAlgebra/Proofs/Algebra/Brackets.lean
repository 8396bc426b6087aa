import GeometricAlgebra.Proofs.Algebra.Metric

set_option autoImplicit false

/-! # Products of three multivectors

A product of three multivectors can be bracketed in two ways, and with other products inside and
outside the two may still agree. Contracting by an outer product is contracting by one factor after
the other, a left and a right contraction do not get into each other's way, and the scalar product
moves a factor of an outer product over to the other side as a contraction.

Each of these products asks something of every vector, given which of the two blades have it. So
whether both ways keep the same three blades is asked of one vector at a time: `Rebrackets`, eight
cases. The blades that are kept have the signs of the geometric product, which does not mind the
brackets (`Rebrackets.sign_mul_sign`). -/

namespace GeometricAlgebra

open Blade Product BladeTree

namespace Product

/-! ## Signs -/

/-- The products that look at one vector after another, and at nothing else. -/
def byVectors : List Product := [scalar, outer, geometric, left, right]

/-- Of three blades, multiplying the first two by `k` and the result by `k'` drops the same vectors
    as multiplying the last two by `l` and the result by `l'`. A vector is told by which of the
    three blades have it. -/
structure Rebrackets (k k' l l' : Product) : Prop where
  byVectors : ∀ m ∈ [k, k', l, l'], m ∈ byVectors
  dropsVector_eq : ∀ x y z : Bool, (dropsVector k x y || dropsVector k' (x ^^ y) z)
    = (dropsVector l y z || dropsVector l' x (y ^^ z))

variable {k k' l l' : Product}

open Classical in
theorem sign_eq_of_byVectors (hk : k ∈ byVectors) (sig : Signature) (a b : Nat) :
    sign k sig a b
      = if ∀ i, dropsVector k (a.testBit i) (b.testBit i) = false then geometricSign sig a b
        else 0 := by
  have happart : dropsApart k = false ∧ keepsLeaf k a b = true := by
    simp only [byVectors, List.mem_cons, List.not_mem_nil, or_false] at hk
    rcases hk with rfl | rfl | rfl | rfl | rfl <;> exact ⟨rfl, rfl⟩
  rw [sign_eq_ite]
  simp [happart]

namespace Rebrackets

variable (h : Rebrackets k k' l l')

include h

theorem keeps_iff (a b c : Nat) :
    ((∀ i, dropsVector k (a.testBit i) (b.testBit i) = false) ∧
        ∀ i, dropsVector k' ((a ^^^ b).testBit i) (c.testBit i) = false) ↔
      (∀ i, dropsVector l (b.testBit i) (c.testBit i) = false) ∧
        ∀ i, dropsVector l' (a.testBit i) ((b ^^^ c).testBit i) = false := by
  rw [← forall_and, ← forall_and]
  refine forall_congr' fun i => ?_
  rw [Nat.testBit_xor, Nat.testBit_xor, ← Bool.or_eq_false_iff, ← Bool.or_eq_false_iff,
    h.dropsVector_eq]

open Classical in
/-- **Both ways to bracket three blades give one sign.** -/
theorem sign_mul_sign (sig : Signature) (a b c : Nat) :
    sign k sig a b * sign k' sig (a ^^^ b) c = sign l sig b c * sign l' sig a (b ^^^ c) := by
  rw [sign_eq_of_byVectors (h.byVectors k (by simp)),
    sign_eq_of_byVectors (h.byVectors k' (by simp)),
    sign_eq_of_byVectors (h.byVectors l (by simp)), sign_eq_of_byVectors (h.byVectors l' (by simp)),
    ite_zero_mul_ite_zero, ite_zero_mul_ite_zero, geometricSign_cocycle]
  exact if_congr (h.keeps_iff a b c) rfl rfl

end Rebrackets

/-! ## Which products agree -/

theorem rebrackets_outer : Rebrackets outer outer outer outer := ⟨by decide, by decide⟩

/-- A vector of both factors of an outer product is dropped there; in the contractions it is gone
    after the first one. -/
theorem rebrackets_outer_left : Rebrackets outer left left left := ⟨by decide, by decide⟩

theorem rebrackets_right_outer : Rebrackets right right outer right := ⟨by decide, by decide⟩

theorem rebrackets_left_right : Rebrackets left right right left := ⟨by decide, by decide⟩

theorem rebrackets_outer_scalar : Rebrackets outer scalar left scalar := ⟨by decide, by decide⟩

end Product

/-! ## Multivectors -/

namespace Algebra

section Ring

variable {α : Type} [CommRing α] {A : Algebra α} {a b c : Multivector α} {k k' l l' : Product}
  {x y z : Nat → α} (hS : A.scalars.IsRing) (hE : A.scalars.IsExact) (h : Rebrackets k k' l l')
  (ha : a.HasCoeffs A.dimension x) (hb : b.HasCoeffs A.dimension y)
  (hc : c.HasCoeffs A.dimension z)

include h in
theorem convolve_rebracket (x y z : Nat → α) :
    convolve A.dimension (A.signs k') (convolve A.dimension (A.signs k) x y) z
      = convolve A.dimension (A.signs l') x (convolve A.dimension (A.signs l) y z) := by
  refine funext (convolve_assoc (fun i j r => ?_) x y z)
  rw [signs, signs, signs, signs, ← Int.cast_mul, ← Int.cast_mul, h.sign_mul_sign]

include hS hE h ha hb hc

/-- **Both ways to bracket three multivectors give one result.** -/
theorem product_rebracket :
    ∃ m, (do A.product k' (← A.product k a b) c) = .ok m ∧
      (do A.product l' a (← A.product l b c)) = .ok m := by
  have hleft := (yields_product hS hE k ha hb).bind hE fun _ hab => yields_product hS hE k' hab hc
  have hright := (yields_product hS hE l hb hc).bind hE fun _ hbc => yields_product hS hE l' ha hbc
  rw [convolve_rebracket h] at hleft
  exact hleft.eq_ok hE hright

omit h in
/-- A factor of an outer product goes to the other side of a scalar product as a contraction. -/
theorem scalarProduct_outer :
    ∃ v, (do A.scalarProduct (← A.product .outer a b) c) = .ok v ∧
      (do A.scalarProduct a (← A.product .left b c)) = .ok v := by
  obtain ⟨m, hleft, hright⟩ := product_rebracket hS hE rebrackets_outer_scalar ha hb hc
  obtain ⟨ab, hab, habc⟩ := bind_eq_ok_iff.mp hleft
  obtain ⟨bc, hbc, habc'⟩ := bind_eq_ok_iff.mp hright
  refine ⟨A.scalarPart m, bind_eq_ok_iff.mpr ⟨ab, hab, ?_⟩, bind_eq_ok_iff.mpr ⟨bc, hbc, ?_⟩⟩
  · exact bind_eq_ok_iff.mpr ⟨m, habc, rfl⟩
  · exact bind_eq_ok_iff.mpr ⟨m, habc', rfl⟩

end Ring

/-- **Contracting by an outer product is contracting by its factors.** The left contraction by an
    outer product is that by the last factor and then by the first, the right contraction that by
    the first and then by the last. Contractions from the two sides may be done in either order, and
    the scalar product with an outer product is that of the first factor with the contraction by the
    second. All of this holds in every signature, where vectors square to zero included. -/
theorem product_contract_outer {α : Type} [CommRing α] {A : Algebra α} (hS : A.scalars.IsRing)
    (hE : A.scalars.IsExact) {a b c : Multivector α} (ha : A.validate a = .ok ())
    (hb : A.validate b = .ok ()) (hc : A.validate c = .ok ()) :
    (∃ m, (do A.product .left (← A.product .outer a b) c) = .ok m ∧
      (do A.product .left a (← A.product .left b c)) = .ok m) ∧
    (∃ m, (do A.product .right c (← A.product .outer a b)) = .ok m ∧
      (do A.product .right (← A.product .right c a) b) = .ok m) ∧
    (∃ m, (do A.product .left a (← A.product .right b c)) = .ok m ∧
      (do A.product .right (← A.product .left a b) c) = .ok m) ∧
    ∃ v, (do A.scalarProduct (← A.product .outer a b) c) = .ok v ∧
      (do A.scalarProduct a (← A.product .left b c)) = .ok v := by
  have hx := (validate_eq_ok_iff.mp ha).hasCoeffs
  have hy := (validate_eq_ok_iff.mp hb).hasCoeffs
  have hz := (validate_eq_ok_iff.mp hc).hasCoeffs
  refine ⟨product_rebracket hS hE rebrackets_outer_left hx hy hz, ?_, ?_,
    scalarProduct_outer hS hE hx hy hz⟩
  · obtain ⟨m, hleft, hright⟩ := product_rebracket hS hE rebrackets_right_outer hz hx hy
    exact ⟨m, hright, hleft⟩
  · obtain ⟨m, hleft, hright⟩ := product_rebracket hS hE rebrackets_left_right hx hy hz
    exact ⟨m, hright, hleft⟩

/-- Three multivectors that share vectors of every square, in different forms. -/
theorem product_contract_outer_mixed :
    let A : Algebra Int := ⟨.mixed, .integers, .auto⟩
    let a : Multivector Int := .vector [2, 3, -1]
    let b : Multivector Int := .ofBlades [(2, -1), (3, 3), (7, 5)]
    let c : Multivector Int := .ofGrades [(1, 0, 4), (2, 0, 5), (2, 2, 7), (3, 0, -2)]
    (∃ m, (do A.product .left (← A.product .outer a b) c) = .ok m ∧
      (do A.product .left a (← A.product .left b c)) = .ok m) ∧
    (∃ m, (do A.product .right c (← A.product .outer a b)) = .ok m ∧
      (do A.product .right (← A.product .right c a) b) = .ok m) ∧
    (∃ m, (do A.product .left a (← A.product .right b c)) = .ok m ∧
      (do A.product .right (← A.product .left a b) c) = .ok m) ∧
    (do A.scalarProduct (← A.product .outer a b) c) = .ok (-10) ∧
      (do A.scalarProduct a (← A.product .left b c)) = .ok (-10) := by
  intro A a b c
  obtain ⟨hleft, hright, hmiddle, v, hscalar, hscalar'⟩ := product_contract_outer (A := A)
    (a := a) (b := b) (c := c) Scalars.isRing_integers Scalars.isExact_integers (by cbv) (by cbv)
    (by cbv)
  have hvalue : (do A.scalarProduct (← A.product .outer a b) c) = .ok (-10) := by cbv
  rw [hscalar] at hvalue
  exact ⟨hleft, hright, hmiddle, hscalar.trans hvalue, hscalar'.trans hvalue⟩

end Algebra

end GeometricAlgebra

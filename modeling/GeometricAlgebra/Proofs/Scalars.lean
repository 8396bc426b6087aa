import Mathlib
import GeometricAlgebra.Scalars

set_option autoImplicit false

/-! # Scalars with laws

Nothing is assumed of a record of arithmetic. Theorems that need laws ask for one of the conditions
below. -/

namespace GeometricAlgebra

namespace Scalars

/-- The record computes in a commutative ring. -/
structure IsRing {α : Type} [CommRing α] (S : Scalars α) : Prop where
  zero : S.zero = 0
  one : S.one = 1
  add : ∀ x y, S.add x y = x + y
  sub : ∀ x y, S.sub x y = x - y
  neg : ∀ x, S.neg x = -x
  mul : ∀ x y, S.mul x y = x * y

/-- The record computes in a field: it divides by every scalar but zero. -/
structure IsField {α : Type} [Field α] (S : Scalars α) : Prop extends S.IsRing where
  div : ∀ x y, y ≠ 0 → S.div x y = .ok (x / y)

/-- Zero is the only scalar that counts as zero. -/
def IsExact {α : Type} [Zero α] (S : Scalars α) : Prop := ∀ x, S.isZero x = true ↔ x = 0

theorem IsExact.isZero_zero {α : Type} [Zero α] {S : Scalars α} (h : S.IsExact) :
    S.isZero 0 = true :=
  (h 0).mpr rfl

theorem IsExact.isZero_eq_false_iff {α : Type} [Zero α] {S : Scalars α} (h : S.IsExact) {x : α} :
    S.isZero x = false ↔ x ≠ 0 := by
  rw [← Bool.not_eq_true, h x]

/-! ## Tolerances -/

/-- What is left of a scalar where those that count as zero are dropped. -/
def cut {α : Type} [Zero α] (S : Scalars α) (x : α) : α := if S.isZero x then 0 else x

theorem cut_of_isZero {α : Type} [Zero α] {S : Scalars α} {x : α} (h : S.isZero x = true) :
    S.cut x = 0 := if_pos h

theorem cut_of_not_isZero {α : Type} [Zero α] {S : Scalars α} {x : α} (h : S.isZero x = false) :
    S.cut x = x := if_neg (by simp [h])

theorem cut_zero {α : Type} [Zero α] (S : Scalars α) : S.cut 0 = 0 := by
  rw [cut, ite_self]

theorem cut_cut {α : Type} [Zero α] (S : Scalars α) (x : α) : S.cut (S.cut x) = S.cut x := by
  cases h : S.isZero x with
  | true => rw [cut_of_isZero h, S.cut_zero]
  | false => rw [cut_of_not_isZero h, cut_of_not_isZero h]

theorem IsExact.cut_eq {α : Type} [Zero α] {S : Scalars α} (h : S.IsExact) (x : α) :
    S.cut x = x := by
  rw [cut]
  split
  · next hx => exact ((h x).mp hx).symm
  · rfl

/-- The record computes in a field, except that scalars up to the size `ε` may count as zero; zero
    does. It divides by the others. -/
structure IsTolerant {α : Type} [Field α] [LinearOrder α] (S : Scalars α) (ε : α) : Prop
    extends S.IsRing where
  isZero_zero : S.isZero 0 = true
  abs_le : ∀ x, S.isZero x = true → |x| ≤ ε
  div : ∀ x y, S.isZero y = false → S.div x y = .ok (x / y)

section IsTolerant

variable {α : Type} [Field α] [LinearOrder α] [IsStrictOrderedRing α] {S : Scalars α} {ε : α}

theorem IsTolerant.nonneg (h : S.IsTolerant ε) : 0 ≤ ε :=
  (abs_nonneg 0).trans (h.abs_le 0 h.isZero_zero)

/-- Dropping a scalar changes it by its size. -/
theorem IsTolerant.abs_cut_sub_le (h : S.IsTolerant ε) (x : α) : |S.cut x - x| ≤ ε := by
  cases hx : S.isZero x with
  | true =>
      rw [cut_of_isZero hx, zero_sub, abs_neg]
      exact h.abs_le x hx
  | false =>
      rw [cut_of_not_isZero hx, sub_self, abs_zero]
      exact h.nonneg

end IsTolerant

/-! ## Integers -/

/-- Exact integers. A quotient has to come out even. -/
def integers : Scalars Int where
  zero := 0
  one := 1
  ofInt m := m
  ofFloat x := x.toInt64.toInt
  add x y := x + y
  sub x y := x - y
  neg x := -x
  mul x y := x * y
  div x y := if y = 0 ∨ x % y ≠ 0 then .error .zeroDivisor else .ok (x / y)
  isZero x := x == 0
  text x := toString x
  timesSign x s := x * s
  magnitude x := some (Float.ofInt x.natAbs)

theorem isRing_integers : integers.IsRing where
  zero := rfl
  one := rfl
  add _ _ := rfl
  sub _ _ := rfl
  neg _ := rfl
  mul _ _ := rfl

theorem isExact_integers : integers.IsExact := fun x => by simp [integers]

/-! ## Fractions -/

/-- Exact fractions. They have no size, so a pivot is the first entry that is not zero. -/
def fractions : Scalars Rat where
  zero := 0
  one := 1
  ofInt m := m
  ofFloat x := x.toRat0
  add x y := x + y
  sub x y := x - y
  neg x := -x
  mul x y := x * y
  div x y := if y = 0 then .error .zeroDivisor else .ok (x / y)
  isZero x := x == 0
  text x := toString x
  timesSign x s := x * s
  magnitude _ := none

theorem isField_fractions : fractions.IsField where
  zero := rfl
  one := rfl
  add _ _ := rfl
  sub _ _ := rfl
  neg _ := rfl
  mul _ _ := rfl
  div _ _ h := if_neg h

theorem isExact_fractions : fractions.IsExact := fun x => by simp [fractions]

end Scalars

end GeometricAlgebra

import GeometricAlgebra.Proofs.Scalars

set_option autoImplicit false

/-! # Numbers that compute exactly with integers

Nothing is assumed of the numbers that stand as coefficients. Where a theorem reads them as exact,
it asks for `CountsExactly`: integers keep their sums and products, and a tolerance takes none of
them for zero but zero itself. Fractions do with any tolerance below one. -/

namespace GeometricAlgebra

namespace Coefficient

/-- Arithmetic is exact on integers, of which only zero is within the tolerance. -/
structure CountsExactly {κ : Type} [Coefficient κ] (ε : κ) : Prop where
  add : ∀ m n : Int, (ofInt m + ofInt n : κ) = ofInt (m + n)
  neg : ∀ m : Int, (-ofInt m : κ) = ofInt (-m)
  mul : ∀ m n : Int, (ofInt m * ofInt n : κ) = ofInt (m * n)
  eq_zero : ∀ m : Int, eq (ofInt m : κ) (ofInt 0) = true ↔ m = 0
  le_tolerance : ∀ m : Int, le (magnitude (ofInt m)) ε = true ↔ m = 0
  tolerance_lt : ∀ m : Int, lt ε (magnitude (ofInt m)) = true ↔ m ≠ 0

namespace CountsExactly

variable {κ : Type} [Coefficient κ] {ε : κ}

theorem ofInt_injective (h : CountsExactly ε) : Function.Injective (ofInt : Int → κ) := by
  intro m n heq
  have hdiff : (ofInt (m + -n) : κ) = ofInt (n + -n) := by
    rw [← h.add, ← h.add, heq]
  have hzero := h.eq_zero (m + -n)
  rw [hdiff, add_neg_cancel] at hzero
  have := hzero.mp ((h.eq_zero 0).mpr rfl)
  omega

theorem ofInt_inj (h : CountsExactly ε) {m n : Int} : (ofInt m : κ) = ofInt n ↔ m = n :=
  h.ofInt_injective.eq_iff

end CountsExactly

/-! ## Fractions -/

instance : Coefficient Rat where
  ofInt m := m
  ofFloat x := x.toRat0
  toFloat x := x.toFloat
  magnitude x := |x|
  le x y := x ≤ y
  lt x y := x < y
  eq x y := x == y
  isFinite _ := true
  text x := toString x

theorem countsExactly_rat {ε : Rat} (h0 : 0 ≤ ε) (h1 : ε < 1) : CountsExactly ε := by
  -- an integer that is not zero has size one at least
  have hsize : ∀ m : Int, |(m : Rat)| ≤ ε ↔ m = 0 := by
    intro m
    constructor
    · intro hm
      have hlt : |(m : Rat)| < 1 := lt_of_le_of_lt hm h1
      exact Int.abs_lt_one_iff.mp (by exact_mod_cast hlt)
    · rintro rfl
      simpa using h0
  refine ⟨fun m n => ?_, fun m => ?_, fun m n => ?_, fun m => ?_, fun m => ?_, fun m => ?_⟩
  · exact (Int.cast_add m n).symm
  · exact (Int.cast_neg m).symm
  · exact (Int.cast_mul m n).symm
  · simp [eq, ofInt]
  · simpa [le, magnitude, ofInt] using hsize m
  · simpa [lt, magnitude, ofInt] using (hsize m).not

/-- Every tolerance is accepted that is not negative. -/
theorem ofTolerance_eq_ok_iff {ε : Rat} {S : Scalars Rat} :
    ofTolerance ε = .ok S ↔ 0 ≤ ε ∧ S = approximate ε := by
  have hlt : lt ε (ofInt 0) = decide (ε < 0) := by simp [lt, ofInt]
  have hfinite : isFinite ε = true := rfl
  rw [ofTolerance, hfinite, hlt]
  by_cases h : ε < 0
  · simp [h, not_le.mpr h]
  · simp [h, not_lt.mp h, eq_comm]

theorem isZero_approximate {ε x : Rat} : (approximate ε).isZero x = true ↔ |x| ≤ ε := by
  simp [approximate, le, magnitude]

/-- Fractions compute exactly up to what the tolerance drops. -/
theorem isTolerant_approximate {ε : Rat} (hε : 0 ≤ ε) : (approximate ε).IsTolerant ε where
  zero := Int.cast_zero
  one := Int.cast_one
  add _ _ := rfl
  sub _ _ := rfl
  neg _ := rfl
  mul _ _ := rfl
  isZero_zero := isZero_approximate.mpr (by rwa [abs_zero])
  abs_le _ hx := isZero_approximate.mp hx
  div x y hy := by
    have hy' : ¬ le (magnitude y) ε = true := by simpa [approximate] using hy
    rw [approximate]
    exact if_neg hy'

end Coefficient

end GeometricAlgebra

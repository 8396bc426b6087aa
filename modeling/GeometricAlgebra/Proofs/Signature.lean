import Mathlib
import GeometricAlgebra.Signature

set_option autoImplicit false

/-! # Signatures and their squares

A signature is held as two blades. Which vectors are in them says what each vector squares to, and
the squares of all vectors, in order, give the two blades again (`ofSquares_squares`). -/

namespace GeometricAlgebra

namespace Signature

variable {sig : Signature}

theorem square_eq_zero_iff {i : Nat} : sig.square i = .zero ↔ sig.null.testBit i = true := by
  rw [square]
  split
  · next h => exact iff_of_true rfl h
  · next h => split <;> simpa using h

theorem square_eq_negative_iff {i : Nat} :
    sig.square i = .negative ↔ sig.negative.testBit i = true := by
  have hdisjoint : ¬ (sig.negative.testBit i = true ∧ sig.null.testBit i = true) := by
    rw [← Bool.and_eq_true, ← Nat.testBit_and, sig.disjoint, Nat.zero_testBit]
    exact Bool.false_ne_true
  rw [square]
  split
  · next hnull => exact iff_of_false (by decide) fun hnegative => hdisjoint ⟨hnegative, hnull⟩
  split
  · next hnegative => exact iff_of_true rfl hnegative
  · next hnegative => exact iff_of_false (by decide) hnegative

/-- A blade within the dimension is the blade of the vectors with a square if it holds just
    these. -/
theorem mask_squares {q : Square} {b : Nat} (hlt : b < 1 <<< sig.dimension)
    (hq : ∀ i, sig.square i = q ↔ b.testBit i = true) : Square.mask q sig.squares = b := by
  refine Nat.eq_of_testBit_eq fun i => ?_
  rw [Square.testBit_mask, squares, List.getElem?_map, Bool.eq_iff_iff, decide_eq_true_iff]
  rcases Nat.lt_or_ge i sig.dimension with hi | hi
  · rw [List.getElem?_range hi, Option.map_some, Option.some.injEq, hq]
  · have hnone : (List.range sig.dimension)[i]? = none := List.getElem?_eq_none (by simpa using hi)
    rw [Nat.one_shiftLeft] at hlt
    rw [hnone, Nat.testBit_lt_two_pow (hlt.trans_le (Nat.pow_le_pow_right (by decide) hi))]
    exact iff_of_false (by simp) Bool.false_ne_true

/-- **A signature is given by its squares.** -/
theorem ofSquares_squares (sig : Signature) : ofSquares sig.squares = .ok sig := by
  have hlength : sig.squares.length = sig.dimension := by simp [squares]
  have hnegative : Square.mask .negative sig.squares = sig.negative :=
    mask_squares sig.negative_lt fun _ => square_eq_negative_iff
  have hnull : Square.mask .zero sig.squares = sig.null :=
    mask_squares sig.null_lt fun _ => square_eq_zero_iff
  rw [ofSquares, dif_pos (hlength.trans_le sig.dimension_le)]
  congr 1
  cases sig
  simp_all

end Signature

end GeometricAlgebra

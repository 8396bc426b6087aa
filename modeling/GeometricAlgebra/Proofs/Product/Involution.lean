import GeometricAlgebra.Proofs.Product.Sign

set_option autoImplicit false

/-! # Unary signs and the signs of products

The signs of reversing and of negating the vectors of a blade depend on its grade alone. Negating
respects products, as shared vectors come in pairs (`involutionSign_xor`). Reversing a blade sorts
the blade followed by itself (`reorderSign_self`), which is bilinear in the two copies; so the sign
of reversing a product is that of reversing both factors and sorting them both ways round
(`reverseSign_mul_sign`). Exchanging the factors turns a left contraction into a right one and
leaves the kind of the other products alone, see `mirror`. -/

namespace GeometricAlgebra

open Blade

/-! ## Signs of grades -/

namespace Grade

theorem reverseSign_mul_self (g : Nat) : reverseSign g * reverseSign g = 1 := by
  unfold reverseSign
  split <;> rfl

theorem involutionSign_mul_self (g : Nat) : involutionSign g * involutionSign g = 1 := by
  unfold involutionSign
  split <;> rfl

theorem reverseSign_succ (g : Nat) : reverseSign (g + 1) = reverseSign g * involutionSign g := by
  unfold reverseSign involutionSign
  have := Nat.mod_lt g (show 0 < 4 by decide)
  have hparity : g % 4 % 2 = g % 2 := Nat.mod_mod_of_dvd g (by decide)
  have hsucc : (g + 1) % 4 = (g % 4 + 1) % 4 := by omega
  rw [hsucc, ← hparity]
  generalize g % 4 = m at *
  interval_cases m <;> decide

/-- The conjugate is the reverse with all vectors negated. -/
theorem conjugateSign_eq (g : Nat) : conjugateSign g = reverseSign g * involutionSign g := by
  rw [← reverseSign_succ]
  unfold conjugateSign reverseSign
  have hiff : (g % 4 = 1 ∨ g % 4 = 2) ↔ (g + 1) % 4 ≥ 2 := by omega
  simp only [hiff]

theorem conjugateSign_mul_self (g : Nat) : conjugateSign g * conjugateSign g = 1 := by
  rw [conjugateSign_eq, mul_mul_mul_comm, reverseSign_mul_self, involutionSign_mul_self, one_mul]

theorem involutionSign_eq_pow (g : Nat) : involutionSign g = (-1) ^ g := by
  rw [neg_one_pow_eq_ite, involutionSign]
  simp only [Nat.even_iff]
  split <;> split <;> first | rfl | omega

end Grade

namespace Product

open Grade

/-! ## Unary signs of products of blades -/

theorem involutionSign_xor (a b : Nat) :
    involutionSign (grade (a ^^^ b)) = involutionSign (grade a) * involutionSign (grade b) := by
  rw [involutionSign_eq_pow, involutionSign_eq_pow, involutionSign_eq_pow, ← pow_add,
    ← grade_xor_add a b, pow_add, pow_mul, neg_one_sq, one_pow, mul_one]

theorem reorderSign_mul_self (a b : Nat) : reorderSign a b * reorderSign a b = 1 := by
  rcases reorderSign_cases a b with h | h <;> rw [h] <;> rfl

/-- A vector in front of smaller ones passes all of them. -/
theorem reorderSign_ofVector_left_of_lt {u c : Nat} (hu : u < 2 ^ c) :
    reorderSign (ofVector c) u = involutionSign (grade u) := by
  have hpass : ∀ j ∈ vectorSet u, swapSign c j = -1 := fun j hj =>
    if_pos (lt_two_pow_iff.mp hu j hj)
  rw [reorderSign_eq_prod, vectorSet_ofVector, Finset.prod_singleton, Finset.prod_congr rfl hpass,
    Finset.prod_const, ← grade_eq_card, involutionSign_eq_pow]

/-- Reversing a blade takes as many swaps as sorting it behind itself. -/
theorem reorderSign_self (a : Nat) : reorderSign a a = reverseSign (grade a) := by
  induction a using topInduction with
  | zero => simp [Blade.grade, reverseSign]
  | top c u hu ih =>
      have htop : reorderSign (ofVector c) (ofVector c) = 1 := by
        rw [reorderSign_ofVector, swapSign, if_neg (lt_irrefl c)]
      rw [grade_add_top hu, reverseSign_succ, two_pow_add_eq_xor hu, reorderSign_xor_left,
        reorderSign_xor_right, reorderSign_xor_right, ih, reorderSign_ofVector_of_lt hu,
        reorderSign_ofVector_left_of_lt hu, htop, mul_one, mul_one]

/-- Reversing a product of blades reverses the blades and exchanges them. -/
theorem reverseSign_mul_geometricSign (sig : Signature) (a b : Nat) :
    reverseSign (grade (a ^^^ b)) * geometricSign sig a b
      = reverseSign (grade a) * reverseSign (grade b) * geometricSign sig b a := by
  rw [geometricSign_eq, geometricSign_eq, Nat.and_comm b a, ← reorderSign_self, ← reorderSign_self,
    ← reorderSign_self, reorderSign_xor_left, reorderSign_xor_right, reorderSign_xor_right]
  calc reorderSign a a * reorderSign a b * (reorderSign b a * reorderSign b b)
        * (metricSign sig (a &&& b) * reorderSign a b)
      = reorderSign a a * reorderSign b b * (metricSign sig (a &&& b) * reorderSign b a)
        * (reorderSign a b * reorderSign a b) := by ring
    _ = reorderSign a a * reorderSign b b * (metricSign sig (a &&& b) * reorderSign b a) := by
        rw [reorderSign_mul_self, mul_one]

/-! ## All products -/

/-- The product that keeps the same pairs of blades with the two exchanged. -/
def mirror : Product → Product
  | left => right
  | right => left
  | k => k

theorem keeps_mirror (k : Product) (a b : Nat) : keeps k.mirror b a = keeps k a b := by
  cases k with
  | scalar => exact Bool.beq_comm
  | outer =>
      change (b &&& a == 0) = (a &&& b == 0)
      rw [Nat.and_comm]
  | fatDot => exact Bool.or_comm _ _
  | hestenes =>
      change (b != 0 && a != 0 && (within b a || within a b))
        = (a != 0 && b != 0 && (within a b || within b a))
      rw [Bool.or_comm (within b a), Bool.and_comm (b != 0)]
  | _ => rfl

theorem filterCommuting_mirror (k : Product) (a b : Nat) (s : Int) :
    filterCommuting k.mirror b a s = filterCommuting k a b s := by
  have hcommute : commute b a = commute a b := Bool.beq_comm
  cases k <;> simp only [mirror, filterCommuting, hcommute]

theorem filterCommuting_mul (k : Product) (a b : Nat) (c s : Int) :
    filterCommuting k a b (c * s) = c * filterCommuting k a b s := by
  unfold filterCommuting
  split
  · split <;> simp
  · split <;> simp
  · rfl

theorem mul_sign (k : Product) (sig : Signature) (a b : Nat) (c : Int) :
    c * sign k sig a b
      = if keeps k a b then filterCommuting k a b (c * geometricSign sig a b) else 0 := by
  rw [sign_eq, filterCommuting_mul, mul_ite, mul_zero]

/-- **Reversing a product reverses its factors and exchanges them.** -/
theorem reverseSign_mul_sign (k : Product) (sig : Signature) (a b : Nat) :
    reverseSign (grade (a ^^^ b)) * sign k sig a b
      = reverseSign (grade a) * reverseSign (grade b) * sign k.mirror sig b a := by
  rw [mul_sign, mul_sign, reverseSign_mul_geometricSign, keeps_mirror, filterCommuting_mirror]

/-- **Negating the vectors of a product negates those of its factors.** -/
theorem involutionSign_mul_sign (k : Product) (sig : Signature) (a b : Nat) :
    involutionSign (grade (a ^^^ b)) * sign k sig a b
      = involutionSign (grade a) * involutionSign (grade b) * sign k sig a b := by
  rw [involutionSign_xor]

theorem conjugateSign_mul_sign (k : Product) (sig : Signature) (a b : Nat) :
    conjugateSign (grade (a ^^^ b)) * sign k sig a b
      = conjugateSign (grade a) * conjugateSign (grade b) * sign k.mirror sig b a := by
  rw [conjugateSign_eq, conjugateSign_eq, conjugateSign_eq, involutionSign_xor]
  calc reverseSign (grade (a ^^^ b)) * (involutionSign (grade a) * involutionSign (grade b))
        * sign k sig a b
      = involutionSign (grade a) * involutionSign (grade b)
        * (reverseSign (grade (a ^^^ b)) * sign k sig a b) := by ring
    _ = reverseSign (grade a) * involutionSign (grade a)
        * (reverseSign (grade b) * involutionSign (grade b)) * sign k.mirror sig b a := by
        rw [reverseSign_mul_sign]
        ring

end Product

end GeometricAlgebra

import GeometricAlgebra.Proofs.Product.Sign

set_option autoImplicit false

/-! # Products as parts of the geometric product

The definitions of the products compare blades as sets of vectors. Here they are compared by grade:
a product keeps a pair of blades iff the grade of the product blade is the right one
(`keeps_eq_keepsGrade`). Both come down to how many vectors the two blades share, which
`grade_xor_add` reads off the three grades. The commutators keep or drop a pair by the sign that it
has the other way round (`geometricSign_swap`), so they are halves of a difference and of a sum. -/

namespace GeometricAlgebra

namespace Product

open Blade

/-! ## Which grades are kept -/

/-- Whether a product keeps the part of grade `g` of the geometric product of two blades of grades
    `g₁` and `g₂`. The commutators keep or drop it as a whole. -/
def keepsGrade : Product → Int → Int → Int → Bool
  | scalar, _, _, g => g == 0
  | outer, g₁, g₂, g => g == g₁ + g₂
  | geometric, _, _, _ => true
  | left, g₁, g₂, g => g == g₂ - g₁
  | right, g₁, g₂, g => g == g₁ - g₂
  | fatDot, g₁, g₂, g => g == |g₁ - g₂|
  | hestenes, g₁, g₂, g => 0 < g₁ && 0 < g₂ && g == |g₁ - g₂|
  | commutator, _, _, _ => true
  | anticommutator, _, _, _ => true

theorem within_iff_grade {a b : Nat} : within a b = true ↔ grade (a &&& b) = grade a := by
  rw [within, beq_iff_eq]
  refine ⟨fun h => by rw [h], fun h => eq_of_vectorSet_eq ?_⟩
  rw [grade_eq_card, grade_eq_card, vectorSet_and] at h
  rw [vectorSet_and]
  exact Finset.eq_of_subset_of_card_le Finset.inter_subset_left h.ge

theorem grade_and_le_left (a b : Nat) : grade (a &&& b) ≤ grade a := by
  rw [grade_eq_card, grade_eq_card, vectorSet_and]
  exact Finset.card_le_card Finset.inter_subset_left

/-- **A product keeps a pair of blades iff it keeps the grade of their product.** -/
theorem keeps_eq_keepsGrade (k : Product) (a b : Nat) :
    keeps k a b = keepsGrade k (grade a) (grade b) (grade (a ^^^ b)) := by
  have hcount := grade_xor_add a b
  have hleft := grade_and_le_left a b
  have hright := grade_and_le_left b a
  have hwithin : within a b = true ↔ grade (a &&& b) = grade a := within_iff_grade
  have hwithin' : within b a = true ↔ grade (b &&& a) = grade b := within_iff_grade
  rw [Nat.and_comm b a] at hright hwithin'
  rw [Bool.eq_iff_iff]
  cases k with
  | scalar =>
      simp only [keeps, keepsGrade, beq_iff_eq, Int.natCast_eq_zero, grade_eq_zero_iff,
        Nat.xor_eq_zero_iff]
  | outer =>
      rw [keeps, keepsGrade, beq_iff_eq, beq_iff_eq, ← grade_eq_zero_iff]
      omega
  | geometric => rfl
  | left =>
      rw [keeps, keepsGrade, hwithin, beq_iff_eq]
      omega
  | right =>
      rw [keeps, keepsGrade, hwithin', beq_iff_eq]
      omega
  | fatDot =>
      rw [keeps, keepsGrade, Bool.or_eq_true, hwithin, hwithin', beq_iff_eq, Int.abs_eq_natAbs]
      omega
  | hestenes =>
      have hne : a ≠ 0 ↔ 0 < grade a := by rw [Nat.pos_iff_ne_zero, Ne, Ne, grade_eq_zero_iff]
      have hne' : b ≠ 0 ↔ 0 < grade b := by rw [Nat.pos_iff_ne_zero, Ne, Ne, grade_eq_zero_iff]
      simp only [keeps, keepsGrade, Bool.and_eq_true, Bool.or_eq_true, hwithin, hwithin', hne, hne',
        bne_iff_ne, beq_iff_eq, decide_eq_true_eq, Int.abs_eq_natAbs]
      omega
  | commutator => rfl
  | anticommutator => rfl

theorem sign_eq_ite_keepsGrade {k : Product} (hc : k ≠ .commutator) (ha : k ≠ .anticommutator)
    (sig : Signature) (a b : Nat) :
    sign k sig a b = if keepsGrade k (grade a) (grade b) (grade (a ^^^ b)) then
      geometricSign sig a b else 0 := by
  have hfilter : filterCommuting k a b (geometricSign sig a b) = geometricSign sig a b := by
    cases k <;> first | rfl | contradiction
  rw [sign_eq, keeps_eq_keepsGrade, hfilter]

/-! ## Exchanging the blades -/

/-- The squares count on both sides, so exchanging two blades changes the sign at most. -/
theorem geometricSign_swap (sig : Signature) (a b : Nat) :
    geometricSign sig b a
      = if commute a b then geometricSign sig a b else -geometricSign sig a b := by
  rw [geometricSign_eq, geometricSign_eq, Nat.and_comm b a, commute]
  rcases reorderSign_cases a b with h | h <;> rcases reorderSign_cases b a with h' | h' <;>
    rw [h, h'] <;> simp

theorem two_mul_sign_commutator (sig : Signature) (a b : Nat) :
    2 * sign .commutator sig a b = geometricSign sig a b - geometricSign sig b a := by
  rw [sign_eq, geometricSign_swap sig a b]
  simp only [keeps, filterCommuting, if_true]
  split <;> ring

theorem two_mul_sign_anticommutator (sig : Signature) (a b : Nat) :
    2 * sign .anticommutator sig a b = geometricSign sig a b + geometricSign sig b a := by
  rw [sign_eq, geometricSign_swap sig a b]
  simp only [keeps, filterCommuting, if_true]
  split <;> ring

/-- Either the commutator or the anticommutator keeps a pair of blades. -/
theorem sign_commutator_add_anticommutator (sig : Signature) (a b : Nat) :
    sign .commutator sig a b + sign .anticommutator sig a b = geometricSign sig a b := by
  have hc := two_mul_sign_commutator sig a b
  have ha := two_mul_sign_anticommutator sig a b
  omega

/-- Both contractions keep a pair of equal blades, and of these alone the scalar product is made. -/
theorem sign_left_add_right (sig : Signature) (a b : Nat) :
    sign .left sig a b + sign .right sig a b = sign .fatDot sig a b + sign .scalar sig a b := by
  have heq : (within a b = true ∧ within b a = true) ↔ a = b := by
    rw [within, within, beq_iff_eq, beq_iff_eq, Nat.and_comm b a]
    exact ⟨fun h => h.1.symm.trans h.2, fun h => by simp [h]⟩
  simp only [sign_eq, keeps, filterCommuting, Bool.or_eq_true, beq_iff_eq, ← heq]
  by_cases hl : within a b = true <;> by_cases hr : within b a = true <;> simp [hl, hr]

end Product

end GeometricAlgebra

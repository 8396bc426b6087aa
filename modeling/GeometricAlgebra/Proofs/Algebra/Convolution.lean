import Mathlib

set_option autoImplicit false

/-! # Twisted convolutions

Blades multiply by `^^^`, up to a sign. The bilinear extension of such a product to families of
coefficients is a convolution that is twisted by the signs. Two nested convolutions agree as soon as
the signs of every three blades do (`convolve_assoc`), so laws for three multivectors come down to
laws of signs. -/

namespace GeometricAlgebra

variable {α : Type} [CommRing α]

/-- The product of two families of coefficients of the blades of an `n`-dimensional algebra, where
    `σ` gives the signs of products of blades. -/
def convolve (n : Nat) (σ : Nat → Nat → α) (x y : Nat → α) (r : Nat) : α :=
  ∑ i ∈ Finset.range (2 ^ n), ∑ j ∈ Finset.range (2 ^ n),
    if i ^^^ j = r then σ i j * x i * y j else 0

section Convolve

variable {n : Nat}

theorem convolve_congr (σ : Nat → Nat → α) {x x' y y' : Nat → α} (hx : ∀ i < 2 ^ n, x i = x' i)
    (hy : ∀ i < 2 ^ n, y i = y' i) (r : Nat) : convolve n σ x y r = convolve n σ x' y' r := by
  unfold convolve
  refine Finset.sum_congr rfl fun i hi => Finset.sum_congr rfl fun j hj => ?_
  rw [hx i (Finset.mem_range.mp hi), hy j (Finset.mem_range.mp hj)]

/-- Only the signs of blades with a coefficient matter. -/
theorem convolve_congr_signs {σ τ : Nat → Nat → α} {x y : Nat → α}
    (h : ∀ i < 2 ^ n, ∀ j < 2 ^ n, x i ≠ 0 → y j ≠ 0 → σ i j = τ i j) :
    convolve n σ x y = convolve n τ x y := by
  funext r
  unfold convolve
  refine Finset.sum_congr rfl fun i hi => Finset.sum_congr rfl fun j hj => ?_
  by_cases hx : x i = 0
  · simp [hx]
  by_cases hy : y j = 0
  · simp [hy]
  rw [h i (Finset.mem_range.mp hi) j (Finset.mem_range.mp hj) hx hy]

theorem convolve_add_signs (σ τ : Nat → Nat → α) (x y : Nat → α) :
    convolve n (σ + τ) x y = convolve n σ x y + convolve n τ x y := by
  funext r
  simp only [convolve, Pi.add_apply, ← Finset.sum_add_distrib]
  refine Finset.sum_congr rfl fun i _ => Finset.sum_congr rfl fun j _ => ?_
  split <;> ring

theorem convolve_smul_left (σ : Nat → Nat → α) (c : α) (x y : Nat → α) :
    convolve n σ (c • x) y = c • convolve n σ x y := by
  funext r
  simp only [convolve, Pi.smul_apply, smul_eq_mul, Finset.mul_sum, mul_ite, mul_zero]
  refine Finset.sum_congr rfl fun i _ => Finset.sum_congr rfl fun j _ => ?_
  rw [mul_left_comm (σ i j) c, mul_assoc c]

/-- The factors of a convolution may be exchanged in the signs instead. -/
theorem convolve_swap (σ : Nat → Nat → α) (x y : Nat → α) :
    convolve n σ x y = convolve n (fun i j => σ j i) y x := by
  funext r
  rw [convolve, convolve, Finset.sum_comm]
  refine Finset.sum_congr rfl fun i _ => Finset.sum_congr rfl fun j _ => ?_
  rw [Nat.xor_comm, mul_right_comm]

theorem convolve_smul_right (σ : Nat → Nat → α) (c : α) (x y : Nat → α) :
    convolve n σ x (c • y) = c • convolve n σ x y := by
  rw [convolve_swap, convolve_smul_left, ← convolve_swap]

/-- Scaling every blade scales a convolution, if the signs allow for it. -/
theorem mul_convolve {t : Nat → α} {σ τ : Nat → Nat → α}
    (h : ∀ i j, t (i ^^^ j) * σ i j = t i * t j * τ i j) (x y : Nat → α) :
    t * convolve n σ x y = convolve n τ (t * x) (t * y) := by
  funext r
  simp only [Pi.mul_apply, convolve, Finset.mul_sum]
  refine Finset.sum_congr rfl fun i _ => Finset.sum_congr rfl fun j _ => ?_
  split
  · next hr =>
      rw [← hr, ← mul_assoc, ← mul_assoc, h]
      ring
  · rw [mul_zero]

/-- No two blades of the algebra multiply to a blade outside. -/
theorem convolve_eq_zero (σ : Nat → Nat → α) (x y : Nat → α) {r : Nat} (hr : 2 ^ n ≤ r) :
    convolve n σ x y r = 0 := by
  refine Finset.sum_eq_zero fun i hi => Finset.sum_eq_zero fun j hj => if_neg fun h => ?_
  have hlt := Nat.xor_lt_two_pow (Finset.mem_range.mp hi) (Finset.mem_range.mp hj)
  omega

/-- Pairing a family with a convolution runs over the pairs of blades that are multiplied. -/
theorem sum_mul_convolve (g : Nat → α) (σ : Nat → Nat → α) (x y : Nat → α) :
    ∑ m ∈ Finset.range (2 ^ n), g m * convolve n σ x y m
      = ∑ i ∈ Finset.range (2 ^ n), ∑ j ∈ Finset.range (2 ^ n),
          g (i ^^^ j) * (σ i j * x i * y j) := by
  unfold convolve
  simp only [Finset.mul_sum, mul_ite, mul_zero]
  rw [Finset.sum_comm]
  refine Finset.sum_congr rfl fun i hi => ?_
  rw [Finset.sum_comm]
  refine Finset.sum_congr rfl fun j hj => ?_
  -- of the sum over `m` only the blade `i ^^^ j` is left
  have hlt := Nat.xor_lt_two_pow (Finset.mem_range.mp hi) (Finset.mem_range.mp hj)
  rw [Finset.sum_ite_eq, if_pos (Finset.mem_range.mpr hlt)]

theorem convolve_convolve_left (σ τ : Nat → Nat → α) (x y z : Nat → α) (r : Nat) :
    convolve n σ (convolve n τ x y) z r
      = ∑ i ∈ Finset.range (2 ^ n), ∑ j ∈ Finset.range (2 ^ n), ∑ l ∈ Finset.range (2 ^ n),
          if i ^^^ j ^^^ l = r then τ i j * σ (i ^^^ j) l * (x i * y j * z l) else 0 := by
  have hpair : ∀ l, (∑ m ∈ Finset.range (2 ^ n),
      if m ^^^ l = r then σ m l * convolve n τ x y m * z l else 0)
        = ∑ m ∈ Finset.range (2 ^ n),
            (if m ^^^ l = r then σ m l * z l else 0) * convolve n τ x y m := by
    intro l
    refine Finset.sum_congr rfl fun m _ => ?_
    split <;> ring
  rw [convolve, Finset.sum_comm]
  simp only [hpair, sum_mul_convolve]
  rw [Finset.sum_comm]
  refine Finset.sum_congr rfl fun i _ => ?_
  rw [Finset.sum_comm]
  refine Finset.sum_congr rfl fun j _ => Finset.sum_congr rfl fun l _ => ?_
  split <;> ring

theorem convolve_convolve_right (σ τ : Nat → Nat → α) (x y z : Nat → α) (r : Nat) :
    convolve n σ x (convolve n τ y z) r
      = ∑ i ∈ Finset.range (2 ^ n), ∑ j ∈ Finset.range (2 ^ n), ∑ l ∈ Finset.range (2 ^ n),
          if i ^^^ j ^^^ l = r then τ j l * σ i (j ^^^ l) * (x i * y j * z l) else 0 := by
  have hpair : ∀ i, (∑ m ∈ Finset.range (2 ^ n),
      if i ^^^ m = r then σ i m * x i * convolve n τ y z m else 0)
        = ∑ m ∈ Finset.range (2 ^ n),
            (if i ^^^ m = r then σ i m * x i else 0) * convolve n τ y z m := by
    intro i
    refine Finset.sum_congr rfl fun m _ => ?_
    split <;> ring
  rw [convolve]
  simp only [hpair, sum_mul_convolve]
  refine Finset.sum_congr rfl fun i _ => Finset.sum_congr rfl fun j _ =>
    Finset.sum_congr rfl fun l _ => ?_
  rw [Nat.xor_assoc]
  split <;> ring

/-- **Nested convolutions agree if the signs of every three blades do.** -/
theorem convolve_assoc {σ τ σ' τ' : Nat → Nat → α}
    (h : ∀ i j l, τ i j * σ (i ^^^ j) l = τ' j l * σ' i (j ^^^ l)) (x y z : Nat → α) (r : Nat) :
    convolve n σ (convolve n τ x y) z r = convolve n σ' x (convolve n τ' y z) r := by
  rw [convolve_convolve_left, convolve_convolve_right]
  simp only [h]

theorem convolve_unit_left {σ : Nat → Nat → α} (hσ : ∀ j, σ 0 j = 1) {x : Nat → α} (h0 : x 0 = 1)
    (hx : ∀ i, i ≠ 0 → x i = 0) (y : Nat → α) {r : Nat} (hr : r < 2 ^ n) :
    convolve n σ x y r = y r := by
  rw [convolve, Finset.sum_eq_single 0]
  · simp only [Nat.zero_xor, hσ, h0, one_mul]
    rw [Finset.sum_ite_eq', if_pos (Finset.mem_range.mpr hr)]
  · intro i _ hi
    simp [hx i hi]
  · exact fun h => absurd (Finset.mem_range.mpr (Nat.two_pow_pos n)) h

theorem convolve_unit_right {σ : Nat → Nat → α} (hσ : ∀ i, σ i 0 = 1) (x : Nat → α) {y : Nat → α}
    (h0 : y 0 = 1) (hy : ∀ i, i ≠ 0 → y i = 0) {r : Nat} (hr : r < 2 ^ n) :
    convolve n σ x y r = x r := by
  rw [convolve, Finset.sum_comm, Finset.sum_eq_single 0]
  · simp only [Nat.xor_zero, hσ, h0, one_mul, mul_one]
    rw [Finset.sum_ite_eq', if_pos (Finset.mem_range.mpr hr)]
  · intro i _ hi
    simp [hy i hi]
  · exact fun h => absurd (Finset.mem_range.mpr (Nat.two_pow_pos n)) h

end Convolve

end GeometricAlgebra

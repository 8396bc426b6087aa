import Mathlib
import GeometricAlgebra.Blade.Rank

set_option autoImplicit false

/-! # Binomial coefficients in words

`binomial` runs up one row of Pascal's triangle, and `exactProduct` is its loop on numbers without
bounds. Either loop up to `i` gives what a longer one holds after `i` steps. Without bounds that is
`C(n, i)`, so every step divides without remainder (`succ_dvd_exactProduct_mul`). The loop in words
agrees with it for as long as no product is cut (`binomialProduct_eq_exactProduct`).

The products are `1 * C(n, 1), 2 * C(n, 2), …`, and up to the middle of the row they do not
decrease. The last one decides for all of them: the loop up to `C(n, m)` keeps to its 128 bits iff
`m * C(n, m)` does (`binomialProduct_fits_iff`). Every algebra is far below that bound, so there
`binomial` is `Nat.choose` (`binomial_eq_choose`). -/

namespace GeometricAlgebra

/-! ## The loop without bounds -/

/-- The loop of `binomialProduct` on numbers of any size. -/
def exactProduct (n m : Nat) : Nat :=
  m.fold (fun i _ r => r * (n - i) / (i + 1)) 1

theorem exactProduct_succ (n m : Nat) :
    exactProduct n (m + 1) = exactProduct n m * (n - m) / (m + 1) := Nat.fold_succ ..

theorem exactProduct_eq_choose (n m : Nat) : exactProduct n m = n.choose m := by
  induction m with
  | zero => rw [Nat.choose_zero_right, exactProduct, Nat.fold_zero]
  | succ m ih =>
      rw [exactProduct_succ, ih, ← Nat.choose_succ_right_eq,
        Nat.mul_div_cancel _ (Nat.succ_pos m)]

/-- What a step divides is a multiple of what it divides by. -/
theorem succ_dvd_exactProduct_mul (n i : Nat) : i + 1 ∣ exactProduct n i * (n - i) := by
  rw [exactProduct_eq_choose, ← Nat.choose_succ_right_eq]
  exact Nat.dvd_mul_left (i + 1) _

/-! ## The loop in words -/

theorem binomialProduct_succ (n m : Nat) :
    binomialProduct n (m + 1) = binomialProduct n m * (n - m) % 2 ^ 128 / (m + 1) := by
  rw [← Nat.one_shiftLeft]
  exact Nat.fold_succ ..

/-- Where no product is cut, words do not matter. -/
theorem binomialProduct_eq_exactProduct {n m : Nat}
    (hfit : ∀ i < m, binomialProduct n i * (n - i) < 2 ^ 128) :
    binomialProduct n m = exactProduct n m := by
  induction m with
  | zero => rfl
  | succ m ih =>
      rw [binomialProduct_succ, Nat.mod_eq_of_lt (hfit m (Nat.lt_succ_self m)),
        ih fun i hi => hfit i (Nat.lt_succ_of_lt hi), exactProduct_succ]

/-- A product that comes after uncut ones is a multiple of the next coefficient. -/
theorem binomialProduct_mul {n i : Nat}
    (hfit : ∀ j < i, binomialProduct n j * (n - j) < 2 ^ 128) :
    binomialProduct n i * (n - i) = (i + 1) * n.choose (i + 1) := by
  rw [binomialProduct_eq_exactProduct hfit, exactProduct_eq_choose, ← Nat.choose_succ_right_eq,
    Nat.mul_comm]

/-- Binomial coefficients do not decrease up to the middle of their row. -/
theorem choose_le_choose_right {n i m : Nat} (him : i ≤ m) (hm : m ≤ n / 2) :
    n.choose i ≤ n.choose m := by
  induction m, him using Nat.le_induction with
  | base => exact le_rfl
  | succ m _ ih => exact (ih (by omega)).trans (Nat.choose_le_succ_of_lt_half_left hm)

/-- **The last product decides.** Up to the middle of the row, no product is cut iff the last one
    fits. -/
theorem binomialProduct_fits_iff {n m : Nat} (hm : m ≤ n / 2) :
    (∀ i < m, binomialProduct n i * (n - i) < 2 ^ 128) ↔ m * n.choose m < 2 ^ 128 := by
  constructor
  · intro hfit
    cases m with
    | zero => simp
    | succ m =>
        rw [← binomialProduct_mul fun j hj => hfit j (Nat.lt_succ_of_lt hj)]
        exact hfit m (Nat.lt_succ_self m)
  · intro hlast i
    -- each product is known once those before it are known not to be cut
    induction i using Nat.strong_induction_on with
    | _ i ih =>
        intro hi
        rw [binomialProduct_mul fun j hj => ih j hj (hj.trans hi)]
        calc (i + 1) * n.choose (i + 1) ≤ m * n.choose m :=
              Nat.mul_le_mul hi (choose_le_choose_right hi hm)
          _ < 2 ^ 128 := hlast

/-! ## Binomial coefficients -/

theorem choose_min_sub {n k : Nat} (hk : k ≤ n) : n.choose (min k (n - k)) = n.choose k := by
  rcases Nat.le_total k (n - k) with h | h
  · rw [Nat.min_eq_left h]
  · rw [Nat.min_eq_right h, Nat.choose_symm hk]

theorem min_sub_le_half {n k : Nat} : min k (n - k) ≤ n / 2 := by omega

theorem binomial_eq_choose_mod {n k : Nat} (hk : k ≤ n)
    (hfit : min k (n - k) * n.choose (min k (n - k)) < 2 ^ 128) :
    binomial n k = n.choose k % 2 ^ 64 := by
  rw [binomial, if_neg (not_lt.mpr hk),
    binomialProduct_eq_exactProduct ((binomialProduct_fits_iff min_sub_le_half).mpr hfit),
    exactProduct_eq_choose, choose_min_sub hk, Nat.one_shiftLeft]

theorem choose_lt_two_pow_64 {n : Nat} (k : Nat) (hn : n ≤ maxDimension) : n.choose k < 2 ^ 64 := by
  rcases Nat.eq_zero_or_pos n with rfl | hpos
  · exact lt_of_le_of_lt (Nat.choose_le_two_pow 0 k) (by decide)
  · exact lt_of_lt_of_le (Nat.choose_lt_two_pow n k hpos) (Nat.pow_le_pow_right (by decide) hn)

/-- No product is cut in an algebra. -/
theorem mul_choose_lt_two_pow_128 {n m : Nat} (hn : n ≤ maxDimension) (hm : m ≤ n) :
    m * n.choose m < 2 ^ 128 := by
  have hm64 : m ≤ 2 ^ 64 := (hm.trans hn).trans (by decide)
  calc m * n.choose m ≤ 2 ^ 64 * n.choose m := Nat.mul_le_mul_right _ hm64
    _ < 2 ^ 64 * 2 ^ 64 := Nat.mul_lt_mul_of_pos_left (choose_lt_two_pow_64 m hn) (by decide)
    _ = 2 ^ 128 := by decide

/-- The words of `binomial` are wide enough for every algebra. -/
theorem binomial_eq_choose {n : Nat} (k : Nat) (hn : n ≤ maxDimension) :
    binomial n k = n.choose k := by
  rcases Nat.lt_or_ge n k with hk | hk
  · rw [binomial, if_pos hk, Nat.choose_eq_zero_of_lt hk]
  · have hfit := mul_choose_lt_two_pow_128 hn ((min_le_left k (n - k)).trans hk)
    rw [binomial_eq_choose_mod hk hfit, Nat.mod_eq_of_lt (choose_lt_two_pow_64 k hn)]

/-- **The loop of `binomial` divides exactly, and knows its bound.** On numbers without bounds every
    division of the loop up to `m = min k (n - k)` leaves no remainder, and the loop ends with
    `C(n, k)`. In words no product of the loop is cut iff `m * C(n, m)` fits in 128 bits, and then
    the answer is `C(n, k)` cut to 64 bits. Up to `maxDimension` vectors it fits, and the answer is
    `C(n, k)` itself. -/
theorem binomial_exact {n k : Nat} (hk : k ≤ n) :
    (∀ i < min k (n - k), i + 1 ∣ exactProduct n i * (n - i)) ∧
    exactProduct n (min k (n - k)) = n.choose k ∧
    ((∀ i < min k (n - k), binomialProduct n i * (n - i) < 2 ^ 128) ↔
      min k (n - k) * n.choose (min k (n - k)) < 2 ^ 128) ∧
    (min k (n - k) * n.choose (min k (n - k)) < 2 ^ 128 → binomial n k = n.choose k % 2 ^ 64) ∧
    (n ≤ maxDimension →
      min k (n - k) * n.choose (min k (n - k)) < 2 ^ 128 ∧ binomial n k = n.choose k) :=
  ⟨fun i _ => succ_dvd_exactProduct_mul n i,
    by rw [exactProduct_eq_choose, choose_min_sub hk],
    binomialProduct_fits_iff min_sub_le_half,
    binomial_eq_choose_mod hk,
    fun hn => ⟨mul_choose_lt_two_pow_128 hn ((min_le_left k (n - k)).trans hk),
      binomial_eq_choose k hn⟩⟩

/-- Sixty out of a hundred: the coefficient has 94 bits, the largest product 99. -/
theorem binomial_exact_hundred :
    (∀ i < 40, i + 1 ∣ exactProduct 100 i * (100 - i)) ∧
    Nat.choose 100 60 = 13746234145802811501267369720 ∧
    (∀ i < 40, binomialProduct 100 i * (100 - i) < 2 ^ 128) ∧
    binomial 100 60 = 13746234145802811501267369720 % 2 ^ 64 := by
  obtain ⟨hdvd, hend, hfits, hcut, -⟩ := binomial_exact (n := 100) (k := 60) (by decide)
  have hm : min 60 (100 - 60) = 40 := by decide
  rw [hm] at hdvd hend hfits hcut
  have hchoose : Nat.choose 100 40 = exactProduct 100 40 := (exactProduct_eq_choose 100 40).symm
  have hvalue : exactProduct 100 40 = 13746234145802811501267369720 := by decide +kernel
  have hfit : 40 * Nat.choose 100 40 < 2 ^ 128 := by
    rw [hchoose, hvalue]
    decide
  rw [← hvalue, hend]
  exact ⟨hdvd, rfl, hfits.mpr hfit, hcut hfit⟩

end GeometricAlgebra

import GeometricAlgebra.Proofs.Algebra.Extension

set_option autoImplicit false

/-! # Sizes of families

The size of a family is the sum of the sizes of its coefficients. An outer product is no larger than
the product of the sizes of its factors (`familySize_outerProduct_le`), so the image of a blade is
bounded by the images of its vectors, and images of vectors that are near each other give extensions
that are (`familySize_extension_sub_le`).

`Near` says of a family that was computed how large the exact one is and how far away. Errors add up
over a computation by its rules, one for each operation. -/

namespace GeometricAlgebra

open Blade Product

variable {α : Type} [CommRing α] [LinearOrder α] [IsStrictOrderedRing α] {m n : Nat}
  {x y z : Nat → α}

/-- The sum of the sizes of the coefficients. -/
def familySize (n : Nat) (x : Nat → α) : α := ∑ r ∈ Finset.range (2 ^ n), |x r|

theorem familySize_nonneg (n : Nat) (x : Nat → α) : 0 ≤ familySize n x :=
  Finset.sum_nonneg fun _ _ => abs_nonneg _

theorem abs_le_familySize (x : Nat → α) {r : Nat} (hr : r < 2 ^ n) : |x r| ≤ familySize n x :=
  Finset.single_le_sum (f := fun r => |x r|) (fun _ _ => abs_nonneg _) (Finset.mem_range.mpr hr)

omit [IsStrictOrderedRing α] in
theorem familySize_congr (h : ∀ r < 2 ^ n, x r = y r) : familySize n x = familySize n y :=
  Finset.sum_congr rfl fun r hr => by rw [h r (Finset.mem_range.mp hr)]

theorem familySize_le_of_abs_le {c : α} (h : ∀ r < 2 ^ n, |x r| ≤ c) :
    familySize n x ≤ 2 ^ n * c := by
  refine (Finset.sum_le_card_nsmul _ _ c fun r hr => h r (Finset.mem_range.mp hr)).trans_eq ?_
  rw [Finset.card_range, nsmul_eq_mul, Nat.cast_pow, Nat.cast_ofNat]

/-! ## Sums and multiples -/

theorem familySize_add_le (n : Nat) (x y : Nat → α) :
    familySize n (x + y) ≤ familySize n x + familySize n y := by
  rw [familySize, familySize, familySize, ← Finset.sum_add_distrib]
  exact Finset.sum_le_sum fun r _ => abs_add_le _ _

theorem familySize_sub_le (n : Nat) (x y z : Nat → α) :
    familySize n (x - z) ≤ familySize n (x - y) + familySize n (y - z) := by
  rw [← sub_add_sub_cancel x y z]
  exact familySize_add_le n _ _

theorem familySize_smul (n : Nat) (c : α) (x : Nat → α) :
    familySize n (c • x) = |c| * familySize n x := by
  simp only [familySize, Pi.smul_apply, smul_eq_mul, abs_mul, Finset.mul_sum]

theorem familySize_sum_le {ι : Type} (s : Finset ι) (n : Nat) (x : ι → Nat → α) :
    familySize n (∑ i ∈ s, x i) ≤ ∑ i ∈ s, familySize n (x i) := by
  simp only [familySize, Finset.sum_apply]
  rw [Finset.sum_comm]
  exact Finset.sum_le_sum fun r _ => Finset.abs_sum_le_sum_abs _ _

theorem familySize_bladeFamily_le (n b : Nat) : familySize n (bladeFamily b : Nat → α) ≤ 1 := by
  have hterm : ∀ r, |(bladeFamily b r : α)| = if r = b then 1 else 0 := by
    intro r
    rw [bladeFamily, apply_ite abs, abs_one, abs_zero]
  simp only [familySize, hterm, Finset.sum_ite_eq']
  split
  · exact le_rfl
  · exact zero_le_one

/-- A sum of multiples is bounded by the families that it is made of. -/
theorem familySize_sum_smul_le {c : α} {k : Nat} (x : Nat → α) {y : Nat → Nat → α}
    (h : ∀ b < 2 ^ k, familySize n (y b) ≤ c) :
    familySize n (∑ b ∈ Finset.range (2 ^ k), x b • y b) ≤ c * familySize k x := by
  refine (familySize_sum_le _ _ _).trans ?_
  rw [familySize.eq_def k, Finset.mul_sum]
  refine Finset.sum_le_sum fun b hb => ?_
  rw [familySize_smul, mul_comm c]
  exact mul_le_mul_of_nonneg_left (h b (Finset.mem_range.mp hb)) (abs_nonneg _)

/-- The blades of a vector are the basis vectors. -/
theorem familySize_of_vector (hx : OfGrade n 1 x) :
    familySize n x = ∑ i ∈ Finset.range n, |x (ofVector i)| := by
  have hsub : (Finset.range n).image ofVector ⊆ Finset.range (2 ^ n) := by
    intro b hb
    obtain ⟨i, hi, rfl⟩ := Finset.mem_image.mp hb
    exact Finset.mem_range.mpr (ofVector_lt_iff.mpr (Finset.mem_range.mp hi))
  rw [familySize, ← Finset.sum_subset hsub, Finset.sum_image ofVector_injective.injOn]
  intro b _ hmem
  rw [abs_eq_zero]
  refine hx.eq_zero fun h => hmem ?_
  obtain ⟨i, rfl⟩ := eq_ofVector_of_grade_eq_one h.2
  exact Finset.mem_image_of_mem ofVector (Finset.mem_range.mpr (ofVector_lt_iff.mp h.1))

/-! ## Outer products -/

theorem abs_outerSign_le (a b : Nat) : |(outerSign a b : α)| ≤ 1 := by
  rw [outerSign]
  split
  · rcases reorderSign_cases a b with h | h <;> rw [h] <;> simp
  · rw [abs_zero]
    exact zero_le_one

/-- **An outer product is no larger than the product of the sizes.** -/
theorem familySize_outerProduct_le (n : Nat) (x y : Nat → α) :
    familySize n (outerProduct x y) ≤ familySize n x * familySize n y := by
  have hcoeff : ∀ r ∈ Finset.range (2 ^ n), |outerProduct x y r|
      ≤ ∑ i ∈ Finset.range (2 ^ n), ∑ j ∈ Finset.range (2 ^ n),
          if i ^^^ j = r then |x i| * |y j| else 0 := by
    intro r hr
    rw [outerProduct_eq_convolve x y (Finset.mem_range.mp hr), convolve]
    refine (Finset.abs_sum_le_sum_abs _ _).trans (Finset.sum_le_sum fun i _ => ?_)
    refine (Finset.abs_sum_le_sum_abs _ _).trans (Finset.sum_le_sum fun j _ => ?_)
    split
    · rw [mul_assoc, abs_mul, abs_mul]
      exact mul_le_of_le_one_left (mul_nonneg (abs_nonneg _) (abs_nonneg _)) (abs_outerSign_le i j)
    · rw [abs_zero]
  calc familySize n (outerProduct x y)
      ≤ ∑ r ∈ Finset.range (2 ^ n), ∑ i ∈ Finset.range (2 ^ n), ∑ j ∈ Finset.range (2 ^ n),
          if i ^^^ j = r then |x i| * |y j| else 0 := Finset.sum_le_sum hcoeff
    _ = ∑ i ∈ Finset.range (2 ^ n), ∑ j ∈ Finset.range (2 ^ n), |x i| * |y j| := by
        rw [Finset.sum_comm]
        refine Finset.sum_congr rfl fun i hi => ?_
        rw [Finset.sum_comm]
        refine Finset.sum_congr rfl fun j hj => ?_
        -- every pair of blades goes to one blade of the algebra
        have hlt := Nat.xor_lt_two_pow (Finset.mem_range.mp hi) (Finset.mem_range.mp hj)
        rw [Finset.sum_ite_eq, if_pos (Finset.mem_range.mpr hlt)]
    _ = familySize n x * familySize n y := (Finset.sum_mul_sum _ _ _ _).symm

/-! ## Images of blades -/

section BladeImage

variable {v w : Nat → Nat → α} {l δ : α}

theorem familySize_bladeImage_le (hl : 1 ≤ l) {b k : Nat} (hv : ∀ i < k, familySize n (v i) ≤ l)
    (hb : b < 2 ^ k) : familySize n (bladeImage v b) ≤ l ^ k := by
  induction b using topInduction generalizing k with
  | zero =>
      rw [bladeImage_zero]
      exact (familySize_bladeFamily_le n 0).trans (one_le_pow₀ hl)
  | top c u hu ih =>
      have hc : c < k := lt_of_two_pow_add_lt hb
      have hbelow := ih (fun i hi => hv i (hi.trans hc)) hu
      calc familySize n (bladeImage v (2 ^ c + u))
          ≤ familySize n (bladeImage v u) * familySize n (v c) := by
            rw [bladeImage_add_top v hu]
            exact familySize_outerProduct_le n _ _
        _ ≤ l ^ c * l := mul_le_mul hbelow (hv c hc) (familySize_nonneg _ _) (by positivity)
        _ = l ^ (c + 1) := (pow_succ l c).symm
        _ ≤ l ^ k := pow_le_pow_right₀ hl hc

/-- Exchanging the images of vectors one after another changes the product by a bit each time. -/
theorem familySize_bladeImage_sub_le (hl : 1 ≤ l) (hδ : 0 ≤ δ) {b k : Nat}
    (hv : ∀ i < k, familySize n (v i) ≤ l) (hw : ∀ i < k, familySize n (w i) ≤ l)
    (hd : ∀ i < k, familySize n (v i - w i) ≤ δ) (hb : b < 2 ^ k) :
    familySize n (bladeImage v b - bladeImage w b) ≤ k * l ^ k * δ := by
  induction b using topInduction generalizing k with
  | zero =>
      rw [bladeImage_zero, bladeImage_zero, sub_self]
      have hzero : familySize n (0 : Nat → α) = 0 := by simp [familySize]
      rw [hzero]
      positivity
  | top c u hu ih =>
      have hc : c < k := lt_of_two_pow_add_lt hb
      have hv' : ∀ i < c, familySize n (v i) ≤ l := fun i hi => hv i (hi.trans hc)
      have hw' : ∀ i < c, familySize n (w i) ≤ l := fun i hi => hw i (hi.trans hc)
      have hbelow := ih hv' hw' (fun i hi => hd i (hi.trans hc)) hu
      have hfirst : familySize n (outerProduct (bladeImage v u - bladeImage w u) (v c))
          ≤ c * l ^ c * δ * l :=
        (familySize_outerProduct_le n _ _).trans
          (mul_le_mul hbelow (hv c hc) (familySize_nonneg _ _) (by positivity))
      have hsecond : familySize n (outerProduct (bladeImage w u) (v c - w c)) ≤ l ^ c * δ :=
        (familySize_outerProduct_le n _ _).trans
          (mul_le_mul (familySize_bladeImage_le hl hw' hu) (hd c hc) (familySize_nonneg _ _)
            (by positivity))
      have hsplit : bladeImage v (2 ^ c + u) - bladeImage w (2 ^ c + u)
          = outerProduct (bladeImage v u - bladeImage w u) (v c)
            + outerProduct (bladeImage w u) (v c - w c) := by
        rw [bladeImage_add_top v hu, bladeImage_add_top w hu, outerProduct_sub_left,
          outerProduct_sub_right]
        abel
      calc familySize n (bladeImage v (2 ^ c + u) - bladeImage w (2 ^ c + u))
          ≤ c * l ^ c * δ * l + l ^ c * δ := by
            rw [hsplit]
            exact (familySize_add_le n _ _).trans (add_le_add hfirst hsecond)
        _ ≤ c * l ^ c * δ * l + l ^ c * l * δ := by
            gcongr
            exact le_mul_of_one_le_right (by positivity) hl
        _ = (c + 1 : Nat) * l ^ (c + 1) * δ := by
            push_cast
            ring
        _ ≤ k * l ^ k * δ := by
            gcongr
            · exact hc
            · exact hc

theorem familySize_extension_le (hl : 1 ≤ l) {k : Nat} (hv : ∀ i < k, familySize n (v i) ≤ l)
    (x : Nat → α) : familySize n (extension k v x) ≤ l ^ k * familySize k x := by
  rw [extension_eq_sum]
  exact familySize_sum_smul_le x fun b hb => familySize_bladeImage_le hl hv hb

/-- **Images of vectors that are near each other give extensions that are.** -/
theorem familySize_extension_sub_le (hl : 1 ≤ l) (hδ : 0 ≤ δ) {k : Nat}
    (hv : ∀ i < k, familySize n (v i) ≤ l) (hw : ∀ i < k, familySize n (w i) ≤ l)
    (hd : ∀ i < k, familySize n (v i - w i) ≤ δ) (x : Nat → α) :
    familySize n (extension k v x - extension k w x) ≤ k * l ^ k * δ * familySize k x := by
  rw [extension_eq_sum, extension_eq_sum, ← Finset.sum_sub_distrib]
  simp only [← smul_sub]
  exact familySize_sum_smul_le x fun b hb => familySize_bladeImage_sub_le hl hδ hv hw hd hb

end BladeImage

/-! ## Errors -/

/-- The family `y` was computed for `x`, which is no larger than `s`, and is off by at most `e`. -/
structure Near (n : Nat) (s e : α) (x y : Nat → α) : Prop where
  size_le : familySize n x ≤ s
  error_le : familySize n (y - x) ≤ e

namespace Near

variable {s e t d : α} {x' y' : Nat → α}

/-- What was computed is larger by no more than the error. -/
theorem computed_le (h : Near n s e x x') : familySize n x' ≤ s + e := by
  have hsum := familySize_add_le n x (x' - x)
  rw [add_sub_cancel] at hsum
  exact hsum.trans (add_le_add h.size_le h.error_le)

/-- A further step adds its own error. -/
theorem trans (h : Near n s e x x') (hd : familySize n (y - x') ≤ d) : Near n s (d + e) x y where
  size_le := h.size_le
  error_le := (familySize_sub_le n y x' x).trans (add_le_add hd h.error_le)

/-- The errors of both factors of an outer product are multiplied by the other one. -/
theorem outerProduct (hx : Near n s e x x') (hy : Near n t d y y') :
    Near n (s * t) (e * (t + d) + s * d) (outerProduct x y) (outerProduct x' y') where
  size_le := (familySize_outerProduct_le n x y).trans (mul_le_mul hx.size_le hy.size_le
    (familySize_nonneg _ _) ((familySize_nonneg n x).trans hx.size_le))
  error_le := by
    have hsplit : GeometricAlgebra.outerProduct x' y' - GeometricAlgebra.outerProduct x y
        = GeometricAlgebra.outerProduct (x' - x) y' + GeometricAlgebra.outerProduct x (y' - y) := by
      rw [outerProduct_sub_left, outerProduct_sub_right]
      abel
    rw [hsplit]
    refine (familySize_add_le n _ _).trans (add_le_add ?_ ?_)
    · exact (familySize_outerProduct_le n _ _).trans (mul_le_mul hx.error_le hy.computed_le
        (familySize_nonneg _ _) ((familySize_nonneg n _).trans hx.error_le))
    · exact (familySize_outerProduct_le n _ _).trans (mul_le_mul hx.size_le hy.error_le
        (familySize_nonneg _ _) ((familySize_nonneg n x).trans hx.size_le))

/-- An extension magnifies both. -/
theorem extension {v : Nat → Nat → α} {l : α} (hl : 1 ≤ l) (hv : ∀ i < m, familySize n (v i) ≤ l)
    (h : Near m s e x x') :
    Near n (l ^ m * s) (l ^ m * e) (extension m v x) (GeometricAlgebra.extension m v x') where
  size_le := (familySize_extension_le hl hv x).trans
    (mul_le_mul_of_nonneg_left h.size_le (by positivity))
  error_le := by
    rw [← map_sub]
    exact (familySize_extension_le hl hv _).trans
      (mul_le_mul_of_nonneg_left h.error_le (by positivity))

end Near

end GeometricAlgebra

import GeometricAlgebra.Proofs.Algebra.Exterior

set_option autoImplicit false

/-! # Extending a map of vectors to all blades

A map of vectors sends vector `i` to a family `v i`. It extends to a blade as the outer product of
the images of its vectors (`bladeImage`), and from there to all families by linearity
(`extension`). As images of vectors anticommute, the images of two blades multiply as the blades do
(`outerProduct_bladeImage`), so the extension preserves outer products (`extension_outerProduct`),
and the extension of a composition is the composition of the extensions (`extension_extension`). -/

namespace GeometricAlgebra

open Blade Product

variable {α : Type} [CommRing α]

/-- The outer product of the images of the vectors of a blade, from the first on. -/
def bladeImage (v : Nat → Nat → α) (b : Nat) : Nat → α :=
  (vectors b).foldl (fun x i => outerProduct x (v i)) (bladeFamily 0)

/-- The linear map on the families of an `n`-dimensional algebra with these images of blades. -/
def extension (n : Nat) (v : Nat → Nat → α) : (Nat → α) →ₗ[α] (Nat → α) :=
  ∑ b ∈ Finset.range (2 ^ n), (LinearMap.proj b).smulRight (bladeImage v b)

/-! ## Images of blades -/

section BladeImage

variable {m n : Nat} {v : Nat → Nat → α}

@[simp] theorem bladeImage_zero (v : Nat → Nat → α) : bladeImage v 0 = bladeFamily 0 := by
  simp [bladeImage, vectors, vectorsFrom]

theorem bladeImage_add_top (v : Nat → Nat → α) {c u : Nat} (hu : u < 2 ^ c) :
    bladeImage v (2 ^ c + u) = outerProduct (bladeImage v u) (v c) := by
  rw [bladeImage, vectors_add_top hu, List.foldl_append, List.foldl_cons, List.foldl_nil,
    ← bladeImage]

theorem bladeImage_ofVector (v : Nat → Nat → α) (i : Nat) : bladeImage v (ofVector i) = v i := by
  have htop := bladeImage_add_top v (Nat.two_pow_pos i)
  rwa [Nat.add_zero, bladeImage_zero, outerProduct_blade_zero_left, ← Nat.one_shiftLeft] at htop

theorem bladeImage_eq_zero (hv : ∀ i r, 2 ^ m ≤ r → v i r = 0) (b : Nat) {r : Nat}
    (hr : 2 ^ m ≤ r) : bladeImage v b r = 0 := by
  induction b using topInduction generalizing r with
  | zero =>
      have hpos := Nat.two_pow_pos m
      rw [bladeImage_zero, bladeFamily, if_neg (by omega)]
  | top c u hu ih =>
      rw [bladeImage_add_top v hu]
      exact outerProduct_eq_zero (fun i hi => ih hi) (hv c) hr

theorem outerSign_ofVector_of_lt {u c : Nat} (hu : u < 2 ^ c) :
    (outerSign u (ofVector c) : α) = 1 := by
  rw [outerSign_of_disjoint (and_ofVector_of_lt hu), reorderSign_ofVector_of_lt hu, Int.cast_one]

/-- A vector on top of a blade passes a smaller vector once more. -/
theorem outerSign_top_ofVector {u c j : Nat} (hu : u < 2 ^ c) (hj : j < c) :
    (outerSign (2 ^ c + u) (ofVector j) : α) = -outerSign u (ofVector j) := by
  have hiff : (2 ^ c + u) &&& ofVector j = 0 ↔ u &&& ofVector j = 0 := by
    have hc : ofVector c &&& ofVector j = 0 := by
      rw [Nat.and_comm, and_ofVector_of_lt (ofVector_lt_iff.mpr hj)]
    rw [two_pow_add_eq_xor hu, Nat.and_xor_distrib_right, hc, Nat.xor_zero]
  rw [outerSign, outerSign]
  simp only [hiff]
  split
  · rw [two_pow_add_eq_xor hu, reorderSign_xor_left, reorderSign_ofVector, swapSign, if_pos hj]
    push_cast
    ring
  · rw [neg_zero]

theorem ofGrade_bladeImage (hv : ∀ i, OfGrade m 1 (v i)) (b : Nat) :
    OfGrade m (grade b) (bladeImage v b) := by
  induction b using topInduction with
  | zero =>
      rw [bladeImage_zero]
      exact ofGrade_bladeFamily (Nat.two_pow_pos m)
  | top c u hu ih =>
      rw [bladeImage_add_top v hu, grade_add_top hu]
      exact ih.outerProduct (hv c)

/-- The image of a blade with one more vector. -/
theorem outerProduct_bladeImage_vector (hv : ∀ i, OfGrade m 1 (v i)) (a j : Nat) :
    outerProduct (bladeImage v a) (v j)
      = (outerSign a (ofVector j) : α) • bladeImage v (a ^^^ ofVector j) := by
  induction a using topInduction with
  | zero =>
      rw [bladeImage_zero, outerProduct_blade_zero_left, outerSign_zero_left, one_smul,
        Nat.zero_xor, bladeImage_ofVector]
  | top c u hu ih =>
      rcases Nat.lt_trichotomy j c with hj | rfl | hj
      · -- the new vector first passes the top one and then goes to its place below it
        have hlt : u ^^^ ofVector j < 2 ^ c := Nat.xor_lt_two_pow hu (ofVector_lt_iff.mpr hj)
        have hblade : (2 ^ c + u) ^^^ ofVector j = 2 ^ c + (u ^^^ ofVector j) := by
          rw [two_pow_add_eq_xor hu, two_pow_add_eq_xor hlt, Nat.xor_right_comm]
        rw [hblade, bladeImage_add_top v hu, bladeImage_add_top v hlt, outerProduct_assoc,
          outerProduct_neg_comm (hv c) (hv j), outerProduct_neg_right, ← outerProduct_assoc, ih,
          outerProduct_smul_left, outerSign_top_ofVector hu hj, neg_smul]
      · have hshared : (2 ^ j + u) &&& ofVector j ≠ 0 := by
          intro h
          have hbit := congrArg (fun b => b.testBit j) h
          rw [Nat.testBit_and, Nat.zero_testBit, ofVector, Nat.one_shiftLeft,
            Nat.testBit_two_pow_self, Nat.testBit_two_pow_add_eq,
            Nat.testBit_lt_two_pow hu] at hbit
          exact absurd hbit (by decide)
        rw [bladeImage_add_top v hu, outerProduct_assoc, outerProduct_self (hv j),
          outerProduct_zero_right, outerSign, if_neg hshared, zero_smul]
      · have hlt : 2 ^ c + u < 2 ^ j := by
          calc 2 ^ c + u < 2 ^ c + 2 ^ c := Nat.add_lt_add_left hu _
            _ = 2 ^ (c + 1) := by rw [Nat.pow_succ]; omega
            _ ≤ 2 ^ j := Nat.pow_le_pow_right (by decide) hj
        rw [outerSign_ofVector_of_lt hlt, one_smul, ← two_pow_add_eq_xor hlt,
          bladeImage_add_top v hlt]

/-- **The images of two blades multiply as the blades do.** -/
theorem outerProduct_bladeImage (hv : ∀ i, OfGrade m 1 (v i)) (a b : Nat) :
    outerProduct (bladeImage v a) (bladeImage v b)
      = (outerSign a b : α) • bladeImage v (a ^^^ b) := by
  induction b using topInduction with
  | zero =>
      rw [bladeImage_zero, outerProduct_blade_zero_right, outerSign_zero_right, one_smul,
        Nat.xor_zero]
  | top d w hw ih =>
      have hcocycle : (outerSign a w * outerSign (a ^^^ w) (ofVector d) : α)
          = outerSign a (w ^^^ ofVector d) := by
        rw [outerSign_cocycle, outerSign_ofVector_of_lt hw, one_mul]
      rw [bladeImage_add_top v hw, ← outerProduct_assoc, ih, outerProduct_smul_left,
        outerProduct_bladeImage_vector hv, smul_smul, hcocycle, two_pow_add_eq_xor hw,
        Nat.xor_assoc]

end BladeImage

/-! ## The extension -/

section Extension

variable {m n : Nat} {v : Nat → Nat → α}

theorem extension_eq_sum (n : Nat) (v : Nat → Nat → α) (x : Nat → α) :
    extension n v x = ∑ b ∈ Finset.range (2 ^ n), x b • bladeImage v b := by
  simp [extension]

theorem extension_apply (n : Nat) (v : Nat → Nat → α) (x : Nat → α) (r : Nat) :
    extension n v x r = ∑ b ∈ Finset.range (2 ^ n), x b * bladeImage v b r := by
  simp [extension_eq_sum]

theorem extension_congr (v : Nat → Nat → α) {x y : Nat → α} (h : ∀ b < 2 ^ n, x b = y b) :
    extension n v x = extension n v y := by
  rw [extension_eq_sum, extension_eq_sum]
  refine Finset.sum_congr rfl fun b hb => ?_
  rw [h b (Finset.mem_range.mp hb)]

theorem extension_bladeFamily (v : Nat → Nat → α) {b : Nat} (hb : b < 2 ^ n) :
    extension n v (bladeFamily b) = bladeImage v b := by
  rw [extension_eq_sum, Finset.sum_eq_single b]
  · rw [bladeFamily, if_pos rfl, one_smul]
  · intro c _ hc
    rw [bladeFamily, if_neg hc, zero_smul]
  · exact fun h => absurd (Finset.mem_range.mpr hb) h

/-- The extension stays within the blades that the images of the vectors have. -/
theorem extension_eq_zero (hv : ∀ i, OfGrade m 1 (v i)) (x : Nat → α) {r : Nat} (hr : 2 ^ m ≤ r) :
    extension n v x r = 0 := by
  rw [extension_apply]
  refine Finset.sum_eq_zero fun b _ => ?_
  rw [(ofGrade_bladeImage hv b).eq_zero fun h => absurd h.1 (not_lt.mpr hr), mul_zero]

theorem OfGrade.extension {k : Nat} (hv : ∀ i, OfGrade m 1 (v i)) {x : Nat → α}
    (hx : OfGrade n k x) : OfGrade m k (extension n v x) := by
  intro r hr
  rw [extension_apply] at hr
  obtain ⟨b, -, hne⟩ := Finset.exists_ne_zero_of_sum_ne_zero hr
  obtain ⟨hlt, hgrade⟩ := ofGrade_bladeImage hv b r (right_ne_zero_of_mul hne)
  exact ⟨hlt, hgrade.trans (hx b (left_ne_zero_of_mul hne)).2⟩

/-- A vector goes to a sum of multiples of images of vectors. -/
theorem extension_of_vector (v : Nat → Nat → α) {x : Nat → α} (hx : OfGrade n 1 x) :
    extension n v x = ∑ i ∈ Finset.range n, x (ofVector i) • v i := by
  have hsub : (Finset.range n).image ofVector ⊆ Finset.range (2 ^ n) := by
    intro b hb
    obtain ⟨i, hi, rfl⟩ := Finset.mem_image.mp hb
    exact Finset.mem_range.mpr (ofVector_lt_iff.mpr (Finset.mem_range.mp hi))
  rw [extension_eq_sum, ← Finset.sum_subset hsub, Finset.sum_image ofVector_injective.injOn]
  · simp only [bladeImage_ofVector]
  · intro b _ hmem
    have hzero : x b = 0 := by
      by_contra hne
      obtain ⟨hlt, hgrade⟩ := hx b hne
      obtain ⟨i, rfl⟩ := eq_ofVector_of_grade_eq_one hgrade
      exact hmem (Finset.mem_image_of_mem ofVector (Finset.mem_range.mpr (ofVector_lt_iff.mp hlt)))
    rw [hzero, zero_smul]

/-- If every basis vector is its own image, so is every blade. -/
theorem bladeImage_eq_self (hv : ∀ i < n, v i = bladeFamily (ofVector i)) {b : Nat} :
    b < 2 ^ n → bladeImage v b = bladeFamily b := by
  induction b using topInduction with
  | zero => exact fun _ => bladeImage_zero v
  | top c u hu ih =>
      intro hb
      rw [bladeImage_add_top v hu, ih ((Nat.le_add_left u _).trans_lt hb),
        hv c (lt_of_two_pow_add_lt hb), outerProduct_bladeFamily, outerSign_ofVector_of_lt hu,
        one_smul, two_pow_add_eq_xor hu]

theorem extension_eq_ite (hv : ∀ i < n, v i = bladeFamily (ofVector i)) (x : Nat → α) (r : Nat) :
    extension n v x r = if r < 2 ^ n then x r else 0 := by
  have hblade : ∀ b ∈ Finset.range (2 ^ n), x b * bladeImage v b r = if r = b then x b else 0 := by
    intro b hb
    rw [bladeImage_eq_self hv (Finset.mem_range.mp hb), bladeFamily, mul_ite, mul_one, mul_zero]
  rw [extension_apply, Finset.sum_congr rfl hblade, Finset.sum_ite_eq]
  simp only [Finset.mem_range]

theorem extension_eq_self (hv : ∀ i < n, v i = bladeFamily (ofVector i)) {x : Nat → α}
    (hx : OfGrade n 1 x) : extension n v x = x := by
  funext r
  rw [extension_eq_ite hv]
  split
  · rfl
  · next hr => exact (hx.eq_zero fun h => hr h.1).symm

/-- **The extension preserves outer products.** -/
theorem extension_outerProduct (hv : ∀ i, OfGrade m 1 (v i)) (x y : Nat → α) :
    extension n v (outerProduct x y) = outerProduct (extension n v x) (extension n v y) := by
  have hpairs : outerProduct (extension n v x) (extension n v y)
      = ∑ a ∈ Finset.range (2 ^ n), ∑ b ∈ Finset.range (2 ^ n),
          (outerSign a b * x a * y b) • bladeImage v (a ^^^ b) := by
    rw [extension_eq_sum, extension_eq_sum, outerProduct_sum_left]
    refine Finset.sum_congr rfl fun a _ => ?_
    rw [outerProduct_sum_right]
    refine Finset.sum_congr rfl fun b _ => ?_
    rw [outerProduct_smul_left, outerProduct_smul_right, outerProduct_bladeImage hv, smul_smul,
      smul_smul]
    congr 1
    ring
  funext r
  rw [hpairs, extension_apply]
  have hconvolve : ∀ b ∈ Finset.range (2 ^ n), outerProduct x y b * bladeImage v b r
      = bladeImage v b r * convolve n outerSign x y b := by
    intro b hb
    rw [outerProduct_eq_convolve x y (Finset.mem_range.mp hb), mul_comm]
  rw [Finset.sum_congr rfl hconvolve, sum_mul_convolve, Finset.sum_apply]
  refine Finset.sum_congr rfl fun a _ => ?_
  rw [Finset.sum_apply]
  exact Finset.sum_congr rfl fun b _ => by rw [Pi.smul_apply, smul_eq_mul, mul_comm]

/-- The image of a blade under a composition of two maps of vectors. -/
theorem bladeImage_extension (hv : ∀ i, OfGrade m 1 (v i)) (w : Nat → Nat → α) (b : Nat) :
    bladeImage (fun i => extension n v (w i)) b = extension n v (bladeImage w b) := by
  induction b using topInduction with
  | zero =>
      rw [bladeImage_zero, bladeImage_zero, extension_bladeFamily v (Nat.two_pow_pos n),
        bladeImage_zero]
  | top c u hu ih =>
      rw [bladeImage_add_top _ hu, bladeImage_add_top w hu, ih, extension_outerProduct hv]

/-- **Extending a composition of two maps composes their extensions.** -/
theorem extension_extension (hv : ∀ i, OfGrade m 1 (v i)) (w : Nat → Nat → α) (k : Nat)
    (x : Nat → α) :
    extension k (fun i => extension n v (w i)) x = extension n v (extension k w x) := by
  rw [extension_eq_sum, extension_eq_sum k w, map_sum]
  refine Finset.sum_congr rfl fun b _ => ?_
  rw [map_smul, bladeImage_extension hv]

end Extension

end GeometricAlgebra

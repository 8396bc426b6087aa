import GeometricAlgebra.Proofs.Algebra.Extension
import GeometricAlgebra.Proofs.Blade.Positions
import GeometricAlgebra.Proofs.Product.Word

set_option autoImplicit false

/-! # Images of blades are minors

The coefficient of a blade `r` in the image of a blade `a` of the same grade is the determinant of
the coordinates of the images of the vectors of `a` in the vectors of `r`
(`bladeImage_eq_det`). Multiplying by the image of the last vector of `a` from the right expands the
determinant along its last column: the sign of taking a vector out of `r` counts the vectors behind
it. -/

namespace GeometricAlgebra

open Blade Product

/-! ## Expansion -/

/-- Only the vectors behind the one taken out are passed. -/
theorem reorderSign_xor_vectorAt {k r : Nat} (hr : grade r = k + 1) (t : Fin (k + 1)) :
    reorderSign (r ^^^ ofVector (vectorAt r t)) (ofVector (vectorAt r t))
      = (-1) ^ (t + k : Nat) := by
  have hlt : (t : Nat) < (vectors r).length := by rw [length_vectors, hr]; exact t.isLt
  have hsorted := List.pairwise_iff_getElem.mp (pairwise_vectors r)
  have hbefore : ((vectors r).take t).countP (vectorAt r t < ·) = 0 := by
    refine List.countP_eq_zero.mpr fun j hj => ?_
    obtain ⟨i, hi, rfl⟩ := List.mem_take_iff_getElem.mp hj
    have := hsorted i t (by omega) hlt (by omega)
    rw [vectorAt_eq_getElem hlt, decide_eq_true_eq]
    omega
  have hbehind : ((vectors r).drop (t + 1)).countP (vectorAt r t < ·) = k - t := by
    have hlength : ((vectors r).drop (t + 1)).length = k - t := by
      rw [List.length_drop, length_vectors, hr, Nat.add_sub_add_right]
    rw [← hlength, List.countP_eq_length]
    intro j hj
    obtain ⟨i, hi, rfl⟩ := List.mem_drop_iff_getElem.mp hj
    rw [vectorAt_eq_getElem hlt, decide_eq_true_eq]
    exact hsorted t (t + 1 + i) hlt (by omega) (by omega)
  rw [reorderSign_eq_prod, vectorSet_ofVector]
  simp only [Finset.prod_singleton]
  rw [vectorSet, List.prod_toFinset _ (nodup_vectors _), prod_map_swapSign,
    vectors_xor_vectorAt (t.isLt.trans_eq hr.symm), List.eraseIdx_eq_take_drop_succ,
    List.countP_append, hbefore, hbehind, Nat.zero_add]
  -- Laplace's sign counts from the front, which is the same up to an even number
  have : (t : Nat) + k = (k - t) + 2 * t := by omega
  rw [this, pow_add, pow_mul, neg_one_sq, one_pow, mul_one]

variable {α : Type} [CommRing α] {m n : Nat} {v : Nat → Nat → α}

/-- An outer product with a vector goes through the vectors of a blade. -/
theorem outerProduct_vector_right (x : Nat → α) {y : Nat → α} (hy : OfGrade n 1 y) (r : Nat) :
    outerProduct x y r = ∑ p ∈ vectorSet r, (reorderSign (r ^^^ ofVector p) (ofVector p) : α)
      * x (r ^^^ ofVector p) * y (ofVector p) := by
  have hmem : ∀ p, ofVector p ∈ parts r ↔ p ∈ vectorSet r := by
    intro p
    rw [mem_parts, within_iff]
    simp only [← mem_vectorSet, vectorSet_ofVector, Finset.mem_singleton, forall_eq]
  symm
  refine Finset.sum_of_injOn (fun p => r ^^^ ofVector p) ?_ ?_ ?_ ?_
  · intro p _ q _ h
    have hcancel := congrArg (r ^^^ ·) h
    simp only [Nat.xor_xor_cancel_left] at hcancel
    exact ofVector_injective hcancel
  · exact fun p hp => xor_mem_parts ((hmem p).mpr hp)
  · -- what is left of a part without one vector has no coefficient in a vector
    intro i hi hother
    have hzero : y (r ^^^ i) = 0 := by
      by_contra hne
      obtain ⟨p, hp⟩ := eq_ofVector_of_grade_eq_one (hy _ hne).2
      refine hother ⟨p, (hmem p).mp (hp ▸ xor_mem_parts hi), ?_⟩
      simp only [← hp, Nat.xor_xor_cancel_left]
    rw [hzero, mul_zero]
  · intro p _
    rw [Nat.xor_xor_cancel_left]

/-- The coordinates of the images of the vectors of `a` in the vectors of `r`. -/
def minor (v : Nat → Nat → α) (r a k : Nat) : Matrix (Fin k) (Fin k) α :=
  Matrix.of fun i j => v (vectorAt a j) (ofVector (vectorAt r i))

/-- **The coefficients of the image of a blade are minors.** -/
theorem bladeImage_eq_det (hv : ∀ i, OfGrade m 1 (v i)) (a : Nat) :
    ∀ k r, grade a = k → grade r = k → bladeImage v a r = (minor v r a k).det := by
  induction a using topInduction with
  | zero =>
      intro k r ha hr
      have hzero : grade 0 = 0 := by rw [grade_eq_card, vectorSet_zero, Finset.card_empty]
      obtain rfl : k = 0 := ha.symm.trans hzero
      have hr0 : r = 0 := by
        rw [grade_eq_card, Finset.card_eq_zero] at hr
        exact eq_of_vectorSet_eq (hr.trans vectorSet_zero.symm)
      rw [bladeImage_zero, Matrix.det_fin_zero, bladeFamily, if_pos hr0]
  | top c u hu ih =>
      -- the image of the top vector is the last column; a vector of `r` is its row, and the blade
      -- below gives the minor without both
      intro k r ha hr
      rw [grade_add_top hu] at ha
      subst ha
      rw [bladeImage_add_top v hu, outerProduct_vector_right _ (hv c), sum_vectorSet hr,
        Matrix.det_succ_column _ (Fin.last (grade u))]
      refine Finset.sum_congr rfl fun t _ => ?_
      have ht : (t : Nat) < grade r := t.isLt.trans_eq hr.symm
      have hminor : (minor v r (2 ^ c + u) (grade u + 1)).submatrix t.succAbove
            (Fin.last (grade u)).succAbove
          = minor v (r ^^^ ofVector (vectorAt r t)) u (grade u) := by
        ext i j
        simp only [minor, Matrix.submatrix_apply, Matrix.of_apply, Fin.succAbove_last,
          Fin.val_castSucc]
        rw [vectorAt_add_top hu j.isLt, vectorAt_xor_vectorAt hr]
      have hlast : minor v r (2 ^ c + u) (grade u + 1) t (Fin.last (grade u))
          = v c (ofVector (vectorAt r t)) := by
        rw [minor, Matrix.of_apply, Fin.val_last, vectorAt_add_top_last hu]
      rw [hminor, hlast, ih _ _ rfl (grade_xor_vectorAt hr ht), reorderSign_xor_vectorAt hr,
        Fin.val_last]
      push_cast
      ring

end GeometricAlgebra

import GeometricAlgebra.Proofs.Elimination

set_option autoImplicit false

/-! # Elimination with a tolerance

With a tolerance, elimination leaves out the rows whose entry in the column counts as zero, though
the entry may not be zero. So the right half is no longer the inverse of the matrix that was given.
It is the exact inverse of another one, which can be followed along: undoing one step turns the
column that was cleared into a combination of columns, and swaps two others (`restored`).

The invariant `Tracked` says how far the two matrices are apart. In a column that is done they
differ by at most the tolerance times the size of the row in the matrix that is followed, and that
size grows with every column by a factor of at most `1 + ε`, and by the entry of the column. -/

namespace GeometricAlgebra

namespace SquareMatrix

variable {α : Type} {n : Nat}

/-! ## Undoing a step -/

section Restored

variable [Field α] {x : Fin n → α} {column pivot : Fin n}

/-- The matrix that a step with the entries `x` came from, column by column. -/
def restored (x : Fin n → α) (column pivot : Fin n) (T : Matrix (Fin n) (Fin n) α) :
    Matrix (Fin n) (Fin n) α :=
  Matrix.of fun i j => if j = column then ∑ r, T i r * x r else T i (swapped column pivot j)

theorem restored_column (T : Matrix (Fin n) (Fin n) α) (i : Fin n) :
    restored x column pivot T i column = ∑ r, T i r * x r := if_pos rfl

theorem restored_of_ne {j : Fin n} (hj : j ≠ column) (T : Matrix (Fin n) (Fin n) α) (i : Fin n) :
    restored x column pivot T i j = T i (swapped column pivot j) := if_neg hj

/-- The pivot row goes to the row of the column, and no other does. -/
theorem swapped_eq_pivot_iff {j : Fin n} : swapped column pivot j = pivot ↔ j = column := by
  rw [swapped_eq_swap, Equiv.swap_apply_eq_iff, Equiv.swap_apply_right]

/-- **A step and its undoing keep an inverse.** -/
theorem cleared_mul_restored (hpivot : x pivot ≠ 0) {R T : Matrix (Fin n) (Fin n) α}
    (h : R * T = 1) : cleared x column pivot R * restored x column pivot T = 1 := by
  have hrow : ∀ i j, ∑ k, R i k * T k j = if i = j then 1 else 0 := by
    intro i j
    rw [← Matrix.mul_apply, h, Matrix.one_apply]
  -- without the step, the column of `x` stands among unit vectors
  have hproduct : ∀ i j, (R * restored x column pivot T) i j
      = if j = column then x i else if i = swapped column pivot j then 1 else 0 := by
    intro i j
    rw [Matrix.mul_apply]
    split
    · next hj =>
        simp only [hj, restored_column, Finset.mul_sum, ← mul_assoc]
        rw [Finset.sum_comm]
        simp only [← Finset.sum_mul, hrow, ite_mul, one_mul, zero_mul]
        rw [Finset.sum_ite_eq, if_pos (Finset.mem_univ _)]
    · next hj => simp only [restored_of_ne hj, hrow]
  ext i j
  rw [cleared_mul, cleared, Matrix.of_apply, hproduct, hproduct, Matrix.one_apply]
  by_cases hj : j = column
  · rw [if_pos hj, if_pos hj, div_self hpivot, mul_one, sub_self, hj]
  · have hother : pivot ≠ swapped column pivot j := fun heq => hj (swapped_eq_pivot_iff.mp heq.symm)
    rw [if_neg hj, if_neg hj, if_neg hother, zero_div, mul_zero, sub_zero]
    by_cases hi : i = column
    · rw [if_pos hi, if_neg fun hij => hj (hij.symm.trans hi)]
    · rw [if_neg hi]
      simp only [swapped_eq_swap, Equiv.apply_eq_iff_eq]

end Restored

/-! ## The invariant -/

section Tracked

variable [Field α] [LinearOrder α] [IsStrictOrderedRing α]

/-- The size of the first `c` entries of a row, and one more. -/
def rowSize (M : Matrix (Fin n) (Fin n) α) (c : Nat) (i : Fin n) : α :=
  1 + ∑ j ∈ Finset.univ.filter fun j : Fin n => (j : Nat) < c, |M i j|

omit [IsStrictOrderedRing α] in
theorem rowSize_succ (M : Matrix (Fin n) (Fin n) α) (column i : Fin n) :
    rowSize M (column + 1) i = rowSize M column i + |M i column| := by
  have hset : (Finset.univ.filter fun j : Fin n => (j : Nat) < column + 1)
      = insert column (Finset.univ.filter fun j : Fin n => (j : Nat) < column) := by
    ext j
    simp only [Finset.mem_filter, Finset.mem_univ, true_and, Finset.mem_insert, Fin.ext_iff]
    omega
  rw [rowSize, hset, Finset.sum_insert (by simp), rowSize]
  ring

theorem one_le_rowSize (M : Matrix (Fin n) (Fin n) α) (c : Nat) (i : Fin n) : 1 ≤ rowSize M c i :=
  le_add_of_nonneg_right (Finset.sum_nonneg fun _ _ => abs_nonneg _)

theorem rowSize_le (M : Matrix (Fin n) (Fin n) α) (c : Nat) (i : Fin n) :
    rowSize M c i ≤ 1 + ∑ j, |M i j| := by
  have hsum : ∑ j ∈ Finset.univ.filter fun j : Fin n => (j : Nat) < c, |M i j| ≤ ∑ j, |M i j| :=
    Finset.sum_le_univ_sum_of_nonneg fun j => abs_nonneg (M i j)
  rw [rowSize]
  gcongr

/-- What holds when `c` columns of the matrix `M` are done: the right half is the inverse of `T`,
    which is close to `M` in these columns. -/
structure Tracked (ε : α) (M : Matrix (Fin n) (Fin n) α) (c : Nat) (m : Augmented α n)
    (T : Matrix (Fin n) (Fin n) α) : Prop where
  inverse : m.right.toMatrix * T = 1
  remaining : ∀ j : Fin n, c ≤ j → ∀ i, (m.right.toMatrix * M) i j = m.left.toMatrix i j
  size_le : ∀ i, ∑ r, |T i r| ≤ (1 + ε) ^ c * rowSize M c i
  error_le : ∀ j : Fin n, j < c → ∀ i,
    |M i j - T i j| ≤ ε * ((1 + ε) ^ (j : Nat) * rowSize M j i)

variable {S : Scalars α} {ε : α} {M T : Matrix (Fin n) (Fin n) α} {c : Nat} {m : Augmented α n}

theorem tracked_start (hS : S.IsRing) (m : SquareMatrix α n) :
    Tracked ε m.toMatrix 0 ⟨m, identity S n⟩ 1 where
  inverse := by rw [toMatrix_identity hS, one_mul]
  remaining _ _ _ := by rw [toMatrix_identity hS, one_mul]
  size_le i := by
    have hrow : ∑ r, |(1 : Matrix (Fin n) (Fin n) α) i r| = 1 := by
      simp [Matrix.one_apply, apply_ite abs]
    rw [hrow, pow_zero, one_mul]
    exact one_le_rowSize _ _ _
  error_le _ h := absurd h (Nat.not_lt_zero _)

omit [IsStrictOrderedRing α] in
/-- The column to be cleared is a combination of columns of the matrix that is followed. -/
theorem Tracked.apply_column {column : Fin n} (h : Tracked ε M column m T) (i : Fin n) :
    M i column = ∑ r, T i r * m.left.toMatrix r column := by
  have hM : M = T * (m.right.toMatrix * M) := by
    rw [← Matrix.mul_assoc, mul_eq_one_comm.mp h.inverse, Matrix.one_mul]
  calc M i column = (T * (m.right.toMatrix * M)) i column := by rw [← hM]
    _ = ∑ r, T i r * m.left.toMatrix r column := by
      rw [Matrix.mul_apply]
      exact Finset.sum_congr rfl fun r _ => by rw [h.remaining column le_rfl]

/-- What is left out of the combination is small. -/
theorem Tracked.abs_column_sub_le (hS : S.IsTolerant ε) {column : Fin n}
    (h : Tracked ε M column m T) (i : Fin n) :
    |M i column - ∑ r, T i r * S.cut (m.left.toMatrix r column)| ≤ ε * ∑ r, |T i r| := by
  rw [h.apply_column, ← Finset.sum_sub_distrib, Finset.mul_sum]
  refine (Finset.abs_sum_le_sum_abs _ _).trans (Finset.sum_le_sum fun r _ => ?_)
  rw [← mul_sub, abs_mul, mul_comm ε, abs_sub_comm]
  exact mul_le_mul_of_nonneg_left (hS.abs_cut_sub_le _) (abs_nonneg _)

/-- The columns that are not cleared change places only. -/
theorem sum_abs_restored_le (x : Fin n → α) (column pivot : Fin n)
    (T : Matrix (Fin n) (Fin n) α) (i : Fin n) :
    ∑ j, |restored x column pivot T i j| ≤ |∑ r, T i r * x r| + ∑ r, |T i r| := by
  have hother : ∑ j ∈ Finset.univ.erase column, |restored x column pivot T i j|
      ≤ ∑ r, |T i r| :=
    calc ∑ j ∈ Finset.univ.erase column, |restored x column pivot T i j|
        = ∑ j ∈ Finset.univ.erase column, |T i (Equiv.swap column pivot j)| :=
          Finset.sum_congr rfl fun j hj => by
            rw [restored_of_ne (Finset.ne_of_mem_erase hj), swapped_eq_swap]
      _ ≤ ∑ j, |T i (Equiv.swap column pivot j)| :=
          Finset.sum_le_univ_sum_of_nonneg fun _ => abs_nonneg _
      _ = ∑ r, |T i r| := Equiv.sum_comp (Equiv.swap column pivot) fun r => |T i r|
  rw [← Finset.add_sum_erase _ _ (Finset.mem_univ column), restored_column]
  gcongr

/-- The new column is as far off as the tolerance takes from the rows. -/
theorem Tracked.abs_column_sub_le_rowSize (hS : S.IsTolerant ε) {column : Fin n}
    (h : Tracked ε M column m T) (i : Fin n) :
    |M i column - ∑ r, T i r * S.cut (m.left.toMatrix r column)|
      ≤ ε * ((1 + ε) ^ (column : Nat) * rowSize M column i) :=
  (h.abs_column_sub_le hS i).trans (mul_le_mul_of_nonneg_left (h.size_le i) hS.nonneg)

/-- A row of the matrix that is followed grows by the entry of the column, and by what was left
    out. -/
theorem Tracked.sum_abs_restored_le (hS : S.IsTolerant ε) {column : Fin n}
    (h : Tracked ε M column m T) (pivot i : Fin n) :
    ∑ j, |restored (fun r => S.cut (m.left.toMatrix r column)) column pivot T i j|
      ≤ (1 + ε) ^ (column + 1 : Nat) * rowSize M (column + 1) i := by
  have hone : 1 ≤ 1 + ε := le_add_of_nonneg_right hS.nonneg
  have hentry : |∑ r, T i r * S.cut (m.left.toMatrix r column)|
      ≤ |M i column| + ε * ((1 + ε) ^ (column : Nat) * rowSize M column i) := by
    have habs := abs_sub_abs_le_abs_sub (∑ r, T i r * S.cut (m.left.toMatrix r column)) (M i column)
    rw [abs_sub_comm] at habs
    linarith [h.abs_column_sub_le_rowSize hS i]
  calc ∑ j, |restored (fun r => S.cut (m.left.toMatrix r column)) column pivot T i j|
      ≤ |∑ r, T i r * S.cut (m.left.toMatrix r column)| + ∑ r, |T i r| :=
        SquareMatrix.sum_abs_restored_le _ _ _ _ _
    _ ≤ |M i column| + ε * ((1 + ε) ^ (column : Nat) * rowSize M column i)
          + (1 + ε) ^ (column : Nat) * rowSize M column i := add_le_add hentry (h.size_le i)
    _ = (1 + ε) ^ (column + 1 : Nat) * rowSize M column i + 1 * |M i column| := by ring
    _ ≤ (1 + ε) ^ (column + 1 : Nat) * rowSize M column i
          + (1 + ε) ^ (column + 1 : Nat) * |M i column| := by
        gcongr
        exact one_le_pow₀ hone
    _ = (1 + ε) ^ (column + 1 : Nat) * rowSize M (column + 1) i := by
        rw [rowSize_succ]
        ring

/-- Clearing the next column keeps the invariant. -/
theorem Tracked.step (hS : S.IsTolerant ε) {column : Fin n} {next : Augmented α n}
    (h : Tracked ε M column m T) (hnext : clearColumn S m column = .ok next) :
    ∃ T', Tracked ε M (column + 1) next T' := by
  cases hpivot : pivotRow? S m.left column with
  | none =>
      rw [clearColumn, hpivot] at hnext
      cases hnext
  | some pivot =>
      obtain ⟨hle, hzero⟩ := isZero_of_pivotRow?_eq_some hpivot
      obtain ⟨next', hnext', hleft, hright⟩ :=
        clearColumn_eq_ok_cut hS.toIsRing hpivot fun y => hS.div y _ hzero
      obtain rfl : next = next' := Except.ok.inj (hnext.symm.trans hnext')
      have hne : S.cut (m.left.toMatrix pivot column) ≠ 0 := by
        rw [Scalars.cut_of_not_isZero hzero]
        intro heq
        rw [heq, hS.isZero_zero] at hzero
        cases hzero
      refine ⟨restored (fun r => S.cut (m.left.toMatrix r column)) column pivot T, ?_, ?_,
        h.sum_abs_restored_le hS pivot, ?_⟩
      · rw [hright]
        exact cleared_mul_restored hne h.inverse
      · intro j hj i
        have hremaining := h.remaining j (by omega)
        rw [hright, hleft, cleared_mul]
        simp only [cleared, Matrix.of_apply, hremaining]
      · intro j hj i
        rcases Nat.lt_succ_iff_lt_or_eq.mp hj with hlt | heq
        · -- columns that are done are not touched
          have hjc : j ≠ column := Fin.ne_of_lt hlt
          have hjp : j ≠ pivot := Fin.ne_of_lt (lt_of_lt_of_le hlt hle)
          rw [restored_of_ne hjc, swapped_eq_swap, Equiv.swap_apply_of_ne_of_ne hjc hjp]
          exact h.error_le j hlt i
        · obtain rfl : j = column := Fin.ext heq
          rw [restored_column]
          exact h.abs_column_sub_le_rowSize hS i

/-- The first columns are done one after another. -/
theorem exists_tracked_of_foldlM (hS : S.IsTolerant ε) (m : SquareMatrix α n) (hc : c ≤ n)
    {reduced : Augmented α n}
    (h : ((List.finRange n).take c).foldlM (clearColumn S) ⟨m, identity S n⟩ = .ok reduced) :
    ∃ T, Tracked ε m.toMatrix c reduced T := by
  induction c generalizing reduced with
  | zero =>
      cases h
      exact ⟨1, tracked_start hS.toIsRing m⟩
  | succ c ih =>
      have hget : (List.finRange n)[c]? = some ⟨c, hc⟩ := by
        rw [List.getElem?_eq_getElem (by simpa using hc), List.getElem_finRange]
        rfl
      rw [List.take_add_one, hget, Option.toList_some, List.foldlM_append] at h
      obtain ⟨before, hbefore, h⟩ := bind_eq_ok_iff.mp h
      obtain ⟨T, hT⟩ := ih (Nat.le_of_succ_le hc) hbefore
      have hT : Tracked ε m.toMatrix (⟨c, hc⟩ : Fin n) before T := hT
      rw [List.foldlM_cons] at h
      obtain ⟨next, hnext, h⟩ := bind_eq_ok_iff.mp h
      cases h
      exact hT.step hS hnext

/-- **Elimination with a tolerance inverts a matrix near the given one.** -/
theorem exists_inverse_near (hS : S.IsTolerant ε) {m r : SquareMatrix α n}
    (h : inverse S m = .ok r) :
    ∃ T, r.toMatrix * T = 1 ∧ ∀ i j, |m.toMatrix i j - T i j|
      ≤ ε * ((1 + ε) ^ n * (1 + ∑ k, |m.toMatrix i k|)) := by
  obtain ⟨reduced, hreduced, h⟩ := bind_eq_ok_iff.mp h
  cases h
  have hall : (List.finRange n).take n = List.finRange n := List.take_of_length_le (by simp)
  rw [← hall] at hreduced
  obtain ⟨T, hT⟩ := exists_tracked_of_foldlM hS m le_rfl hreduced
  have hone : 1 ≤ 1 + ε := le_add_of_nonneg_right hS.nonneg
  refine ⟨T, hT.inverse, fun i j => (hT.error_le j j.isLt i).trans ?_⟩
  gcongr
  · exact hS.nonneg
  · exact one_le_rowSize _ _ _ |>.trans' zero_le_one
  · exact j.isLt.le
  · exact rowSize_le _ _ _

end Tracked

end SquareMatrix

end GeometricAlgebra

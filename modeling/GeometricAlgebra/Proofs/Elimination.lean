import GeometricAlgebra.Elimination
import GeometricAlgebra.Proofs.Multivector.View
import GeometricAlgebra.Proofs.Scalars

set_option autoImplicit false

/-! # Elimination inverts matrices

One step takes a pivot row and clears a column with it, `cleared`, in both halves at once. Such a
step commutes with products from the right (`cleared_mul`) and can be undone, so no vector is sent
to zero that was not before (`mulVec_eq_zero_of_cleared`). The invariant of the loop is `Reduced`:
the right half times the matrix is the left half, whose first columns are those of the identity.

After the last column the right half is the inverse. Where a column has no pivot, it is a
combination of the columns before it, so some vector is sent to zero and the determinant vanishes
(`Reduced.det_eq_zero`). Which of the usable rows becomes the pivot row does not matter. -/

namespace GeometricAlgebra

namespace SquareMatrix

variable {α : Type} {n : Nat}

/-- The matrix that is stored. -/
def toMatrix (m : SquareMatrix α n) : Matrix (Fin n) (Fin n) α :=
  Matrix.of fun i j => (m.get i).get j

theorem toMatrix_apply (m : SquareMatrix α n) (i j : Fin n) : m.toMatrix i j = (m.get i).get j :=
  rfl

/-! ## Pivots -/

/-- A fold that either keeps its first component or takes the next element ends with one of them. -/
theorem foldl_fst_mem {β γ : Type} {step : β × γ → β → β × γ}
    (h : ∀ best r, (step best r).1 = best.1 ∨ (step best r).1 = r) (l : List β) (best : β × γ) :
    (l.foldl step best).1 ∈ best.1 :: l := by
  induction l generalizing best with
  | nil => exact List.mem_singleton.mpr rfl
  | cons r l ih =>
      rw [List.foldl_cons]
      rcases List.mem_cons.mp (ih (step best r)) with hfirst | hrest
      · rw [hfirst]
        rcases h best r with hkeep | htake
        · rw [hkeep]
          exact List.mem_cons_self
        · rw [htake]
          exact List.mem_cons_of_mem _ List.mem_cons_self
      · exact List.mem_cons_of_mem _ (List.mem_cons_of_mem _ hrest)

section Pivot

variable {S : Scalars α} {m : SquareMatrix α n} {column : Fin n}

theorem mem_usable {usable : List (Fin n)}
    (h : (List.finRange n).filter (fun r => column ≤ r && !S.isZero (m.toMatrix r column)) = usable)
    {r : Fin n} : r ∈ usable ↔ column ≤ r ∧ S.isZero (m.toMatrix r column) = false := by
  rw [← h, List.mem_filter, Bool.and_eq_true, decide_eq_true_eq, Bool.not_eq_true',
    and_iff_right (List.mem_finRange r)]

/-- The pivot does not count as zero, and is not above the diagonal. -/
theorem isZero_of_pivotRow?_eq_some {pivot : Fin n} (h : pivotRow? S m column = some pivot) :
    column ≤ pivot ∧ S.isZero (m.toMatrix pivot column) = false := by
  rw [pivotRow?] at h
  split at h
  · cases h
  · next first rest husable =>
      refine (mem_usable husable).mp ?_
      split at h
      · cases h
        exact List.mem_cons_self
      · next size _ =>
          cases h
          refine foldl_fst_mem (fun best r => ?_) rest (first, size)
          split
          · split
            · exact Or.inr rfl
            · exact Or.inl rfl
          · exact Or.inl rfl

/-- Without a pivot the column counts as zero from the diagonal down. -/
theorem isZero_of_pivotRow?_eq_none (h : pivotRow? S m column = none) {r : Fin n}
    (hr : column ≤ r) : S.isZero (m.toMatrix r column) = true := by
  rw [pivotRow?] at h
  split at h
  · next husable =>
      by_contra hne
      exact List.not_mem_nil ((mem_usable husable).mpr ⟨hr, Bool.not_eq_true _ ▸ hne⟩)
  · split at h <;> cases h

variable [Zero α] (hE : S.IsExact)

include hE

theorem of_pivotRow?_eq_some {pivot : Fin n} (h : pivotRow? S m column = some pivot) :
    column ≤ pivot ∧ m.toMatrix pivot column ≠ 0 :=
  (isZero_of_pivotRow?_eq_some h).imp_right hE.isZero_eq_false_iff.mp

theorem of_pivotRow?_eq_none (h : pivotRow? S m column = none) {r : Fin n} (hr : column ≤ r) :
    m.toMatrix r column = 0 :=
  (hE _).mp (isZero_of_pivotRow?_eq_none h hr)

end Pivot

/-! ## One step -/

theorem swapped_eq_swap (a b i : Fin n) : swapped a b i = Equiv.swap a b i :=
  (Equiv.swap_apply_def a b i).symm

section Step

variable [Field α]

/-- The rows after a column was cleared with a pivot row. The entries `x` of the rows in that column
    tell which multiples are subtracted. -/
def cleared (x : Fin n → α) (column pivot : Fin n) (M : Matrix (Fin n) (Fin n) α) :
    Matrix (Fin n) (Fin n) α :=
  Matrix.of fun i j =>
    if i = column then M pivot j / x pivot
    else M (swapped column pivot i) j - x (swapped column pivot i) * (M pivot j / x pivot)

variable {S : Scalars α} {column pivot : Fin n} {x : Fin n → α}

theorem get_ofFn {β : Type} (f : Fin n → β) (i : Fin n) : (Vector.ofFn f).get i = f i := by
  simp [Vector.get_eq_getElem]

/-- What is not subtracted is a multiple by a factor that counts as zero. -/
theorem subtractMultiple_apply (hS : S.IsRing) (row pivotRow : Vector α n) (factor : α)
    (j : Fin n) :
    (if S.isZero factor then row else subtractMultiple S row factor pivotRow).get j
      = row.get j - S.cut factor * pivotRow.get j := by
  cases hzero : S.isZero factor with
  | true => rw [if_pos rfl, Scalars.cut_of_isZero hzero, zero_mul, sub_zero]
  | false =>
      rw [if_neg Bool.false_ne_true, Scalars.cut_of_not_isZero hzero, subtractMultiple, get_ofFn,
        hS.sub, hS.mul]
      rfl

/-- One step clears the column in both halves, with the multiples that the left half asks for,
    where they do not count as zero. -/
theorem clearColumn_eq_ok_cut (hS : S.IsRing) {m : Augmented α n}
    (h : pivotRow? S m.left column = some pivot)
    (hdiv : ∀ y, S.div y (m.left.toMatrix pivot column) = .ok (y / m.left.toMatrix pivot column)) :
    ∃ next, clearColumn S m column = .ok next ∧
      next.left.toMatrix
        = cleared (fun r => S.cut (m.left.toMatrix r column)) column pivot m.left.toMatrix ∧
      next.right.toMatrix
        = cleared (fun r => S.cut (m.left.toMatrix r column)) column pivot m.right.toMatrix := by
  obtain ⟨-, hpivot⟩ := isZero_of_pivotRow?_eq_some h
  have hdivide : ∀ row : Vector α n, (row.mapM fun y => S.div y m.left[pivot][column])
      = .ok (row.map (· / m.left[pivot][column])) := by
    intro row
    simp only [fun y => show S.div y m.left[pivot][column] = _ from hdiv y]
    exact Vector.mapM_pure _
  have hclear : ∀ rows : SquareMatrix α n,
      toMatrix (Vector.ofFn fun i =>
        let r := swapped column pivot i
        let factor := m.left[r][column]
        if i = column then rows[pivot].map (· / m.left[pivot][column])
        else if S.isZero factor then rows[r]
        else subtractMultiple S rows[r] factor (rows[pivot].map (· / m.left[pivot][column])))
        = cleared (fun r => S.cut (m.left.toMatrix r column)) column pivot rows.toMatrix := by
    intro rows
    ext i j
    rw [toMatrix_apply, get_ofFn, cleared, Matrix.of_apply, Scalars.cut_of_not_isZero hpivot]
    by_cases hi : i = column
    · simp only [if_pos hi, Vector.get_eq_getElem, Fin.getElem_fin, Vector.getElem_map,
        toMatrix_apply]
    · simp only [if_neg hi]
      rw [subtractMultiple_apply hS]
      simp only [Vector.get_eq_getElem, Fin.getElem_fin, Vector.getElem_map, toMatrix_apply]
  refine ⟨⟨_, _⟩, ?_, hclear m.left, hclear m.right⟩
  rw [clearColumn, h]
  simp only [hdivide]
  rfl

/-- Where only zero counts as zero, every row is cleared. -/
theorem clearColumn_eq_ok (hS : S.IsField) (hE : S.IsExact) {m : Augmented α n}
    (h : pivotRow? S m.left column = some pivot) :
    ∃ next, clearColumn S m column = .ok next ∧
      next.left.toMatrix = cleared (m.left.toMatrix · column) column pivot m.left.toMatrix ∧
      next.right.toMatrix = cleared (m.left.toMatrix · column) column pivot m.right.toMatrix := by
  obtain ⟨-, hpivot⟩ := of_pivotRow?_eq_some hE h
  have hnext := clearColumn_eq_ok_cut hS.toIsRing h fun y => hS.div y _ hpivot
  simpa only [hE.cut_eq] using hnext

/-- Clearing a column goes through the rows, so it commutes with whatever is linear in a row. -/
theorem sum_cleared_mul (M : Matrix (Fin n) (Fin n) α) (w : Fin n → α) (i : Fin n) :
    ∑ k, cleared x column pivot M i k * w k
      = if i = column then (∑ k, M pivot k * w k) / x pivot
        else ∑ k, M (swapped column pivot i) k * w k
          - x (swapped column pivot i) * ((∑ k, M pivot k * w k) / x pivot) := by
  simp only [cleared, Matrix.of_apply]
  split
  · rw [Finset.sum_div]
    exact Finset.sum_congr rfl fun k _ => by ring
  · rw [Finset.sum_div, Finset.mul_sum, ← Finset.sum_sub_distrib]
    exact Finset.sum_congr rfl fun k _ => by ring

theorem cleared_mul (M N : Matrix (Fin n) (Fin n) α) :
    cleared x column pivot M * N = cleared x column pivot (M * N) := by
  ext i j
  rw [Matrix.mul_apply, sum_cleared_mul]
  simp only [cleared, Matrix.of_apply, Matrix.mul_apply]

/-- Clearing a column can be undone. -/
theorem mulVec_eq_zero_of_cleared (hpivot : x pivot ≠ 0) {M : Matrix (Fin n) (Fin n) α}
    {v : Fin n → α} (h : (cleared x column pivot M).mulVec v = 0) : M.mulVec v = 0 := by
  have hrows : ∀ i, ∑ k, cleared x column pivot M i k * v k = 0 := congrFun h
  have hrow : ∑ k, M pivot k * v k = 0 := by
    have hcolumn := hrows column
    rw [sum_cleared_mul, if_pos rfl, div_eq_zero_iff] at hcolumn
    exact hcolumn.resolve_right hpivot
  funext r
  change ∑ k, M r k * v k = 0
  by_cases hr : r = pivot
  · rw [hr, hrow]
  · -- any other row is one that a multiple of the pivot row was subtracted from
    have hne : swapped column pivot r ≠ column := by
      rw [swapped_eq_swap]
      intro heq
      rw [Equiv.swap_apply_eq_iff, Equiv.swap_apply_left] at heq
      exact hr heq
    have hback : swapped column pivot (swapped column pivot r) = r := by
      rw [swapped_eq_swap, swapped_eq_swap, Equiv.swap_apply_self]
    have hother := hrows (swapped column pivot r)
    rwa [sum_cleared_mul, if_neg hne, hback, hrow, zero_div, mul_zero, sub_zero] at hother

end Step

/-! ## The invariant -/

/-- What holds when the first `c` columns of the matrix `M` have been cleared. -/
structure Reduced [Field α] (M : Matrix (Fin n) (Fin n) α) (c : Nat) (m : Augmented α n) :
    Prop where
  product : m.right.toMatrix * M = m.left.toMatrix
  kernel : ∀ v, m.left.toMatrix.mulVec v = 0 → M.mulVec v = 0
  columns : ∀ j : Fin n, j < c → ∀ i, m.left.toMatrix i j = if i = j then 1 else 0

section Run

variable [Field α] {S : Scalars α} {M : Matrix (Fin n) (Fin n) α} {c : Nat} {m : Augmented α n}

theorem toMatrix_identity (hS : S.IsRing) (n : Nat) : (identity S n).toMatrix = 1 := by
  ext i j
  simp [toMatrix, identity, Matrix.one_apply, hS.one, hS.zero]

theorem reduced_start (hS : S.IsRing) (m : SquareMatrix α n) :
    Reduced m.toMatrix 0 ⟨m, identity S n⟩ where
  product := by rw [toMatrix_identity hS, one_mul]
  kernel _ h := h
  columns _ h := absurd h (Nat.not_lt_zero _)

/-- Clearing the next column keeps the invariant. -/
theorem Reduced.step (hS : S.IsField) (hE : S.IsExact) {column pivot : Fin n}
    (h : Reduced M column m) (hpivot : pivotRow? S m.left column = some pivot) :
    ∃ next, clearColumn S m column = .ok next ∧ Reduced M (column + 1) next := by
  obtain ⟨hle, hne⟩ := of_pivotRow?_eq_some hE hpivot
  obtain ⟨next, hnext, hleft, hright⟩ := clearColumn_eq_ok hS hE hpivot
  refine ⟨next, hnext, ?_, ?_, ?_⟩
  · rw [hleft, hright, cleared_mul, h.product]
  · intro v hv
    rw [hleft] at hv
    exact h.kernel v (mulVec_eq_zero_of_cleared (x := (m.left.toMatrix · column)) hne hv)
  · intro j hj i
    rw [hleft, cleared, Matrix.of_apply]
    rcases Nat.lt_succ_iff_lt_or_eq.mp hj with hlt | heq
    · -- the pivot row is zero in the columns that are done, so they stay as they are
      have hjc : j ≠ column := Fin.ne_of_lt hlt
      have hjp : j ≠ pivot := Fin.ne_of_lt (lt_of_lt_of_le hlt hle)
      rw [h.columns j hlt pivot, if_neg hjp.symm, zero_div, mul_zero, sub_zero]
      split
      · next hi => rw [hi, if_neg hjc.symm]
      · rw [h.columns j hlt, swapped_eq_swap]
        refine if_congr ?_ rfl rfl
        rw [Equiv.swap_apply_eq_iff, Equiv.swap_apply_of_ne_of_ne hjc hjp]
    · obtain rfl : j = column := Fin.ext heq
      rw [div_self hne, mul_one, sub_self]

/-- The next column, less its part in the columns that are done, as a vector of coefficients. -/
def dependency (L : Matrix (Fin n) (Fin n) α) (column j : Fin n) : α :=
  if j = column then 1 else if j < column then -L j column else 0

/-- A column without a pivot depends on the columns before it. -/
theorem Reduced.det_eq_zero (hE : S.IsExact) {column : Fin n} (h : Reduced M column m)
    (hnone : pivotRow? S m.left column = none) : M.det = 0 := by
  refine Matrix.exists_mulVec_eq_zero_iff.mp ⟨dependency m.left.toMatrix column, ?_, ?_⟩
  · intro hzero
    have hentry := congrFun hzero column
    rw [dependency, if_pos rfl] at hentry
    exact one_ne_zero hentry
  · refine h.kernel _ (funext fun i => ?_)
    have hterm : ∀ j, m.left.toMatrix i j * dependency m.left.toMatrix column j
        = (if j = column then m.left.toMatrix i column else 0)
          - if j = i then (if i < column then m.left.toMatrix i column else 0) else 0 := by
      intro j
      rw [dependency]
      by_cases hj : j = column
      · subst hj
        rw [if_pos rfl, if_pos rfl, mul_one]
        split
        · next hji => rw [hji, if_neg (lt_irrefl i), sub_zero]
        · rw [sub_zero]
      · rw [if_neg hj, if_neg hj, zero_sub]
        by_cases hlt : j < column
        · rw [if_pos hlt, h.columns j hlt]
          by_cases hji : j = i
          · rw [if_pos hji, if_pos hji.symm, ← hji, if_pos hlt, one_mul]
          · rw [if_neg hji, if_neg (Ne.symm hji), zero_mul, neg_zero]
        · rw [if_neg hlt, mul_zero]
          split
          · next hji => rw [← hji, if_neg hlt, neg_zero]
          · rw [neg_zero]
    rw [Matrix.mulVec, dotProduct, Finset.sum_congr rfl fun j _ => hterm j,
      Finset.sum_sub_distrib, Finset.sum_ite_eq', Finset.sum_ite_eq', if_pos (Finset.mem_univ _),
      if_pos (Finset.mem_univ _), Pi.zero_apply]
    split
    · rw [sub_self]
    · next hge => rw [of_pivotRow?_eq_none hE hnone (not_lt.mp hge), sub_zero]

/-- The first columns are cleared one after another, up to one without a pivot. -/
theorem foldlM_clearColumn (hS : S.IsField) (hE : S.IsExact) (m : SquareMatrix α n) (hc : c ≤ n) :
    (∃ reduced, ((List.finRange n).take c).foldlM (clearColumn S) ⟨m, identity S n⟩ = .ok reduced ∧
      Reduced m.toMatrix c reduced) ∨
    ∃ e, ((List.finRange n).take c).foldlM (clearColumn S) ⟨m, identity S n⟩ = .error e ∧
      e.kind = .singular ∧ m.toMatrix.det = 0 := by
  induction c with
  | zero => exact Or.inl ⟨_, rfl, reduced_start hS.toIsRing m⟩
  | succ c ih =>
      have hget : (List.finRange n)[c]? = some ⟨c, hc⟩ := by
        rw [List.getElem?_eq_getElem (by simpa using hc), List.getElem_finRange]
        rfl
      rw [List.take_add_one, hget, Option.toList_some, List.foldlM_append]
      rcases ih (Nat.le_of_succ_le hc) with ⟨reduced, hok, hreduced⟩ | ⟨e, he, hkind, hdet⟩
      · have hreduced' : Reduced m.toMatrix ((⟨c, hc⟩ : Fin n) : Nat) reduced := hreduced
        rw [hok]
        cases hpivot : pivotRow? S reduced.left ⟨c, hc⟩ with
        | none =>
            refine Or.inr ⟨.noPivot c, ?_, rfl, hreduced'.det_eq_zero hE hpivot⟩
            simp only [bind, Except.bind, List.foldlM_cons, clearColumn, hpivot]
        | some pivot =>
            obtain ⟨next, hnext, hstep⟩ := hreduced'.step hS hE hpivot
            refine Or.inl ⟨next, ?_, hstep⟩
            simp only [bind, Except.bind, List.foldlM_cons, List.foldlM_nil, hnext]
            rfl
      · rw [he]
        exact Or.inr ⟨e, rfl, hkind, hdet⟩

/-- **Elimination gives the inverse, or the matrix is singular.** -/
theorem inverse_spec (hS : S.IsField) (hE : S.IsExact) (m : SquareMatrix α n) :
    (∃ r, inverse S m = .ok r ∧ r.toMatrix * m.toMatrix = 1) ∨
      ∃ e, inverse S m = .error e ∧ e.kind = .singular ∧ m.toMatrix.det = 0 := by
  have hall : (List.finRange n).take n = List.finRange n := List.take_of_length_le (by simp)
  have hrun := foldlM_clearColumn hS hE m (le_refl n)
  rw [hall] at hrun
  rcases hrun with ⟨reduced, hok, hreduced⟩ | ⟨e, he, hkind, hdet⟩
  · refine Or.inl ⟨reduced.right, ?_, ?_⟩
    · rw [inverse, hok]
      rfl
    · rw [hreduced.product]
      ext i j
      rw [hreduced.columns j j.isLt, Matrix.one_apply]
  · refine Or.inr ⟨e, ?_, hkind, hdet⟩
    rw [inverse, he]
    rfl

end Run

end SquareMatrix

end GeometricAlgebra

import GeometricAlgebra.Proofs.Blade.Vectors

set_option autoImplicit false

/-! # Vectors by position

The vectors of a blade in ascending order, counted from zero: what taking out a vector does to the
others, and sums over the vectors of a blade as sums over positions. In the pseudoscalar every
vector stands at its own position. -/

namespace GeometricAlgebra

namespace Blade

/-- The vector at a position of a blade. -/
def vectorAt (b i : Nat) : Nat := (vectors b).getD i 0

theorem vectorAt_eq_getElem {b i : Nat} (hi : i < (vectors b).length) :
    vectorAt b i = (vectors b)[i] := List.getD_eq_getElem _ _ hi

theorem vectorAt_mem {b i : Nat} (hi : i < grade b) : vectorAt b i ∈ vectorSet b := by
  rw [← length_vectors] at hi
  rw [vectorAt_eq_getElem hi, vectorSet, List.mem_toFinset]
  exact List.getElem_mem hi

theorem vectorAt_add_top {c u i : Nat} (hu : u < 2 ^ c) (hi : i < grade u) :
    vectorAt (2 ^ c + u) i = vectorAt u i := by
  rw [← length_vectors] at hi
  rw [vectorAt, vectorAt, vectors_add_top hu, List.getD_append _ _ _ _ hi]

theorem vectorAt_add_top_last {c u : Nat} (hu : u < 2 ^ c) :
    vectorAt (2 ^ c + u) (grade u) = c := by
  rw [vectorAt, vectors_add_top hu, List.getD_append_right _ _ _ _ (length_vectors u).le,
    length_vectors, Nat.sub_self, List.getD_cons_zero]

/-- Taking a vector out of a blade takes it out of the list. -/
theorem vectors_xor_vectorAt {r t : Nat} (ht : t < grade r) :
    vectors (r ^^^ ofVector (vectorAt r t)) = (vectors r).eraseIdx t := by
  have hmem := vectorAt_mem ht
  have hlt : t < (vectors r).length := by rwa [length_vectors]
  refine (pairwise_vectors _).eq_of_mem_iff
    ((pairwise_vectors r).sublist (List.eraseIdx_sublist _ _)) fun j => ?_
  rw [← (nodup_vectors r).erase_getElem t hlt, ← vectorAt_eq_getElem hlt,
    (nodup_vectors r).mem_erase_iff, mem_vectors, mem_vectors, ← mem_vectorSet, ← mem_vectorSet,
    vectorSet_xor, vectorSet_ofVector, Finset.mem_symmDiff, Finset.mem_singleton]
  constructor
  · rintro (⟨hj, hne⟩ | ⟨rfl, hj⟩)
    · exact ⟨hne, hj⟩
    · exact absurd hmem hj
  · exact fun ⟨hne, hj⟩ => Or.inl ⟨hj, hne⟩

theorem vectorAt_xor_vectorAt {k r : Nat} (hr : grade r = k + 1) (t : Fin (k + 1)) (i : Fin k) :
    vectorAt (r ^^^ ofVector (vectorAt r t)) i = vectorAt r (t.succAbove i) := by
  rw [vectorAt.eq_def (r ^^^ _), vectors_xor_vectorAt (t.isLt.trans_eq hr.symm),
    vectorAt.eq_def r (t.succAbove i), List.getD_eq_getElem?_getD, List.getD_eq_getElem?_getD,
    List.getElem?_eraseIdx, Fin.succAbove]
  simp only [Fin.lt_def, Fin.val_castSucc]
  split <;> rfl

theorem grade_xor_vectorAt {k r t : Nat} (hr : grade r = k + 1) (ht : t < grade r) :
    grade (r ^^^ ofVector (vectorAt r t)) = k := by
  rw [← length_vectors, vectors_xor_vectorAt ht,
    List.length_eraseIdx_of_lt (by rwa [length_vectors]),
    length_vectors, hr, Nat.add_sub_cancel]

theorem sum_vectorSet {M : Type} [AddCommMonoid M] {n r : Nat} (hr : grade r = n) (F : Nat → M) :
    ∑ p ∈ vectorSet r, F p = ∑ t : Fin n, F (vectorAt r t) := by
  rw [← length_vectors] at hr
  subst hr
  rw [vectorSet, List.sum_toFinset F (nodup_vectors r), ← Fin.sum_univ_fun_getElem]
  exact Finset.sum_congr rfl fun t _ => by rw [vectorAt_eq_getElem t.isLt]

/-! ## The pseudoscalar -/

theorem vectors_firstVectors {n : Nat} (hn : n ≤ maxDimension) :
    vectors (firstVectors n) = List.range n := by
  have hpow : firstVectors n = 2 ^ n - 1 := by
    rw [firstVectors, Nat.min_eq_left hn, Nat.one_shiftLeft]
  rw [hpow]
  clear hpow hn
  induction n with
  | zero => simp [vectors, vectorsFrom]
  | succ n ih =>
      have hpos := Nat.two_pow_pos n
      have htop : 2 ^ (n + 1) - 1 = 2 ^ n + (2 ^ n - 1) := by rw [Nat.pow_succ]; omega
      rw [htop, vectors_add_top (by omega), ih, List.range_succ]

variable {n : Nat} (hn : n ≤ maxDimension)

include hn

theorem grade_firstVectors : grade (firstVectors n) = n := by
  rw [← length_vectors, vectors_firstVectors hn, List.length_range]

theorem vectorAt_firstVectors {i : Nat} (hi : i < n) : vectorAt (firstVectors n) i = i := by
  rw [vectorAt, vectors_firstVectors hn, List.getD_eq_getElem _ _ (by simpa using hi),
    List.getElem_range]

theorem vectorSet_firstVectors : vectorSet (firstVectors n) = Finset.range n := by
  rw [vectorSet, vectors_firstVectors hn, List.toFinset_range]

theorem firstVectors_lt : firstVectors n < 2 ^ n := by
  rw [lt_two_pow_iff, vectorSet_firstVectors hn]
  exact fun i => Finset.mem_range.mp

/-- The pseudoscalar is the only blade of its grade. -/
theorem eq_firstVectors {r : Nat} (hr : r < 2 ^ n) (hgrade : grade r = n) : r = firstVectors n := by
  apply eq_of_vectorSet_eq
  rw [vectorSet_firstVectors hn]
  refine Finset.eq_of_subset_of_card_le (fun i hi => ?_) ?_
  · exact Finset.mem_range.mpr (lt_two_pow_iff.mp hr i hi)
  · rw [← grade_eq_card, hgrade, Finset.card_range]

end Blade

end GeometricAlgebra

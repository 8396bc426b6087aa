import GeometricAlgebra.Proofs.Coefficient
import GeometricAlgebra.Proofs.Elimination.Tolerance
import GeometricAlgebra.Proofs.Outermorphism.Inverse

set_option autoImplicit false

/-! # Inverses with a tolerance

With a tolerance an inverse is exact only up to what is dropped on the way: rows that elimination
leaves out, entries of the inverse that count as zero, and entries of a composition that do. The
first makes it the inverse of a matrix near the given one (`SquareMatrix.exists_inverse_near`), the
second changes every entry by at most the tolerance (`NearInverse`). Multiplied out, the composition
of a map and its inverse is off the identity by the tolerance times the sizes of a row of the map
and of a column of the inverse (`roundTripError`).

No bound holds that leaves these sizes out. A map that scales a vector by more than the inverse of
the tolerance has an inverse that drops the vector, and composed with it gives zero. -/

namespace GeometricAlgebra

open Blade

variable {α : Type} {n : Nat}

namespace SquareMatrix

/-! ## Matrices that nearly undo each other -/

section NearInverse

variable [Field α] [LinearOrder α] [IsStrictOrderedRing α] {ε : α}
  {M G N T : Matrix (Fin n) (Fin n) α}

/-- `G` is near the inverse `N` of a matrix `T` near `M`. -/
structure NearInverse (ε : α) (M G N T : Matrix (Fin n) (Fin n) α) : Prop where
  nonneg : 0 ≤ ε
  inverse : N * T = 1
  source : ∀ i j, |M i j - T i j| ≤ ε * ((1 + ε) ^ n * (1 + ∑ k, |M i k|))
  result : ∀ i j, |G i j - N i j| ≤ ε

/-- The inverse that is near is hardly larger. -/
theorem NearInverse.abs_le (h : NearInverse ε M G N T) (i j : Fin n) : |N i j| ≤ |G i j| + ε := by
  have habs := abs_sub_abs_le_abs_sub (N i j) (G i j)
  rw [abs_sub_comm] at habs
  linarith [h.result i j]

omit [IsStrictOrderedRing α] in
/-- Both errors come with the factor that they are multiplied by. -/
theorem NearInverse.mul_sub_one (h : NearInverse ε M G N T) :
    M * G - 1 = (M - T) * N + M * (G - N) := by
  rw [Matrix.sub_mul, Matrix.mul_sub, mul_eq_one_comm.mp h.inverse]
  abel

theorem NearInverse.abs_mul_sub_one_le (h : NearInverse ε M G N T) (i j : Fin n) :
    |(M * G - 1) i j| ≤ ε * ((1 + ε) ^ n * (1 + ∑ k, |M i k|) * (∑ k, |G k j| + n * ε)
      + ∑ k, |M i k|) := by
  have hsource : |∑ k, (M - T) i k * N k j|
      ≤ ε * ((1 + ε) ^ n * (1 + ∑ k, |M i k|) * (∑ k, |G k j| + n * ε)) :=
    calc |∑ k, (M - T) i k * N k j| ≤ ∑ k, |(M - T) i k * N k j| := Finset.abs_sum_le_sum_abs _ _
      _ ≤ ∑ k, ε * ((1 + ε) ^ n * (1 + ∑ k, |M i k|)) * (|G k j| + ε) :=
          Finset.sum_le_sum fun k _ => by
            rw [abs_mul]
            exact mul_le_mul (h.source i k) (h.abs_le k j) (abs_nonneg _)
              ((abs_nonneg _).trans (h.source i k))
      _ = ε * ((1 + ε) ^ n * (1 + ∑ k, |M i k|) * (∑ k, |G k j| + n * ε)) := by
          rw [← Finset.mul_sum, Finset.sum_add_distrib, Finset.sum_const, Finset.card_univ,
            Fintype.card_fin, nsmul_eq_mul]
          ring
  have hresult : |∑ k, M i k * (G - N) k j| ≤ ε * ∑ k, |M i k| :=
    calc |∑ k, M i k * (G - N) k j| ≤ ∑ k, |M i k * (G - N) k j| := Finset.abs_sum_le_sum_abs _ _
      _ ≤ ∑ k, ε * |M i k| := Finset.sum_le_sum fun k _ => by
          rw [abs_mul, mul_comm ε]
          exact mul_le_mul_of_nonneg_left (h.result k j) (abs_nonneg _)
      _ = ε * ∑ k, |M i k| := (Finset.mul_sum _ _ _).symm
  rw [h.mul_sub_one, Matrix.add_apply, Matrix.mul_apply, Matrix.mul_apply, mul_add]
  exact (abs_add_le _ _).trans (add_le_add hsource hresult)

end NearInverse

/-! ## One entry -/

section Scaling

variable [Field α] {S : Scalars α}

/-- A matrix of one entry is inverted exactly, unless the entry counts as zero. -/
theorem inverse_one (hS : S.IsRing) {m : SquareMatrix α 1} {x : α} (hm : m.toMatrix 0 0 = x)
    (hx : S.isZero x = false) (hdiv : ∀ y, S.div y x = .ok (y / x)) :
    ∃ r, inverse S m = .ok r ∧ r.toMatrix 0 0 = x⁻¹ := by
  cases hpivot : pivotRow? S m 0 with
  | none =>
      have hzero := isZero_of_pivotRow?_eq_none hpivot le_rfl
      rw [hm, hx] at hzero
      cases hzero
  | some pivot =>
      obtain rfl : pivot = 0 := Subsingleton.elim _ _
      obtain ⟨next, hnext, -, hright⟩ :=
        clearColumn_eq_ok_cut (m := ⟨m, identity S 1⟩) hS hpivot (hm ▸ hdiv)
      refine ⟨next.right, ?_, ?_⟩
      · rw [inverse, List.finRange_succ, List.finRange_zero, List.map_nil, List.foldlM_cons, hnext]
        rfl
      · rw [hright, cleared, Matrix.of_apply, if_pos rfl, hm, Scalars.cut_of_not_isZero hx,
          toMatrix_identity hS, Matrix.one_apply_eq, one_div]

end Scaling

end SquareMatrix

/-! ## Maps -/

namespace Terms

variable [CommRing α] {S : Scalars α}

theorem dropZeros_eq_empty (h0 : S.isZero 0 = true) {t : Terms α}
    (h : ∀ b, S.isZero (coeff t b) = true) : dropZeros S t = ∅ := by
  apply Std.ExtTreeMap.ext_getElem?
  intro b
  refine Option.ext fun v => ?_
  rw [getElem?_dropZeros_iff h0, Std.ExtTreeMap.getElem?_empty]
  refine iff_of_false ?_ (by simp)
  rintro ⟨rfl, hne⟩
  rw [h b] at hne
  cases hne

end Terms

namespace Outermorphism

section Field

variable [Field α] [LinearOrder α] [IsStrictOrderedRing α] {S : Scalars α} {ε : α}
  {f g : Outermorphism α}

/-- **The matrix of an inverse is near the inverse of a matrix near that of the map.** -/
theorem exists_nearInverse (hS : S.IsTolerant ε) (hf : f.WellFormed) (hd : f.domain = n)
    (ht : f.target = n) (hg : f.inverse S = .ok g) :
    g.WellFormed ∧ g.domain = n ∧ g.target = n ∧ ∃ N T : Matrix (Fin n) (Fin n) α,
      SquareMatrix.NearInverse ε (f.toMatrix S n n) (g.toMatrix S n n) N T := by
  obtain ⟨m, hm, hinverse⟩ := inverse_eq_bind hS.toIsRing hd ht
  rw [hinverse] at hg
  obtain ⟨r, hr, hg⟩ := bind_eq_ok_iff.mp hg
  obtain ⟨T, hT, hsource⟩ := SquareMatrix.exists_inverse_near hS hr
  obtain ⟨g', hg', hwf, hgd, hgt, hmatrix⟩ :=
    ofColumns_spec_cut hS.toIsRing hS.isZero_zero (hd ▸ hf.domain_le) r.toMatrix
  obtain rfl : g = g' := Except.ok.inj (hg.symm.trans hg')
  rw [hm] at hsource
  refine ⟨hwf, hgd, hgt, r.toMatrix, T, hS.nonneg, hT, hsource, fun i j => ?_⟩
  rw [hmatrix]
  exact hS.abs_cut_sub_le _

/-- How far an entry of the composition of a map `f` and its inverse `g` can be off the identity. -/
def roundTripError (S : Scalars α) (ε : α) (f g : Outermorphism α) (n : Nat) (i j : Fin n) : α :=
  ε * ((1 + ∑ k, |f.toMatrix S n n i k|) *
    (1 + (1 + ε) ^ n * (∑ k, |g.toMatrix S n n k j| + n * ε)))

/-- The composition of a map and its inverse is near the identity. -/
theorem abs_comp_inverse_sub_le (hS : S.IsTolerant ε) (hf : f.WellFormed) (hd : f.domain = n)
    (ht : f.target = n) (hg : f.inverse S = .ok g) :
    ∃ h, f.comp S g = .ok h ∧ h.domain = n ∧ h.target = n ∧ ∀ i j : Fin n,
      h.toMatrix S n n i j = S.cut ((f.toMatrix S n n * g.toMatrix S n n) i j) ∧
      |h.toMatrix S n n i j - (1 : Matrix (Fin n) (Fin n) α) i j|
        ≤ roundTripError S ε f g n i j := by
  obtain ⟨hwg, hgd, hgt, N, T, hnear⟩ := exists_nearInverse hS hf hd ht hg
  obtain ⟨h, hh, -, hht, hhd, hfamily⟩ :=
    comp_spec_cut hS.toIsRing hS.isZero_zero hf hwg (hgt.trans hd.symm)
  refine ⟨h, hh, hhd.trans hgd, hht.trans ht, fun i j => ?_⟩
  have hentry : h.toMatrix S n n i j = S.cut ((f.toMatrix S n n * g.toMatrix S n n) i j) := by
    rw [toMatrix_apply hS.toIsRing (hht.trans ht) (hhd.trans hgd), hfamily]
    exact congrArg S.cut (extension_family_ofVector hS.toIsRing hwg ht hd hgt hgd i j)
  refine ⟨hentry, ?_⟩
  calc |h.toMatrix S n n i j - (1 : Matrix (Fin n) (Fin n) α) i j|
      ≤ |S.cut ((f.toMatrix S n n * g.toMatrix S n n) i j)
            - (f.toMatrix S n n * g.toMatrix S n n) i j|
          + |(f.toMatrix S n n * g.toMatrix S n n - 1) i j| := by
        rw [hentry, Matrix.sub_apply]
        exact abs_sub_le _ _ _
    _ ≤ ε + ε * ((1 + ε) ^ n * (1 + ∑ k, |f.toMatrix S n n i k|) *
          (∑ k, |g.toMatrix S n n k j| + n * ε) + ∑ k, |f.toMatrix S n n i k|) :=
        add_le_add (hS.abs_cut_sub_le _) (hnear.abs_mul_sub_one_le i j)
    _ = roundTripError S ε f g n i j := by
        rw [roundTripError]
        ring

/-! ## Scaling one vector -/

omit [LinearOrder α] [IsStrictOrderedRing α] in
/-- An image without terms is a column of zeros. -/
theorem toMatrix_eq_zero_of_image (hS : S.IsRing) (hd : g.domain = n) (ht : g.target = n)
    {j : Fin n} (i : Fin n) (hj : g.images[j]? = some ∅) : g.toMatrix S n n i j = 0 := by
  rw [toMatrix_apply hS ht hd, family, BladeTree.imageFamily, List.getD_eq_getElem?_getD]
  rw [Fin.getElem?_fin] at hj
  rw [hj, Option.getD_some, Terms.coeff_empty]

omit [LinearOrder α] [IsStrictOrderedRing α] in
/-- A coordinate that counts as zero leaves an image without terms. -/
theorem ofColumns_one_eq_ok (h0 : S.isZero 0 = true) {y : α} (hy : S.isZero y = true) :
    ofColumns S 1 [[y]] = .ok ⟨1, [∅]⟩ := by
  have hn : 1 ≤ maxDimension := by decide
  have hrange : (Multivector.vector [y]).InRange 1 := Multivector.inRange_vector rfl
  have hvector : Multivector.vectorIn 1 [y] = .ok (.vector [y]) := by
    rw [Multivector.vectorIn, List.length_singleton, if_pos rfl, Multivector.checked,
      (Multivector.validate_eq_ok_iff 1 _).mpr ⟨hn, hrange⟩]
    rfl
  have hempty : Terms.dropZeros S (Multivector.vector [y]).toTerms = ∅ := by
    refine Terms.dropZeros_eq_empty h0 fun b => ?_
    rw [Multivector.coeff_toTerms hn hrange]
    split
    · next hb =>
        rcases Nat.lt_succ_iff_lt_or_eq.mp hb with hb | rfl
        · obtain rfl : b = 0 := by omega
          have hscalar : (Multivector.vector [y]).coeff 0 = 0 := by
            rw [Multivector.vector, Multivector.dense, Multivector.ofRanks, Multivector.coeff,
              Multivector.get?, if_neg (by decide +kernel), Option.getD_none]
          rwa [hscalar]
        · have hcoeff : (Multivector.vector [y]).coeff 1 = y :=
            Multivector.coeff_vector (Nat.zero_le _)
          rwa [hcoeff]
    · exact h0
  have hcolumn : ofColumn S 1 [y] = .ok (Terms.toRanks ∅ 1) := by
    rw [ofColumn, hvector]
    refine bind_eq_ok_iff.mpr ⟨_, rfl, ?_⟩
    have hkeys : (∅ : Terms α).keys = [] := rfl
    simp only [Terms.ofOneGrade, hempty, hkeys, List.find?_nil]
  rw [ofColumns, List.mapM_cons, hcolumn]
  cbv

omit [IsStrictOrderedRing α] in
/-- **A map that scales a vector too much for the tolerance has an inverse without an image.** -/
theorem inverse_scaling (hS : S.IsTolerant ε) (hd : f.domain = 1) (ht : f.target = 1) {x : α}
    (hentry : f.toMatrix S 1 1 0 0 = x) (hx : S.isZero x = false)
    (hinv : S.isZero x⁻¹ = true) : f.inverse S = .ok ⟨1, [∅]⟩ := by
  obtain ⟨m, hm, hinverse⟩ := inverse_eq_bind hS.toIsRing hd ht
  rw [← hm] at hentry
  obtain ⟨r, hr, hrx⟩ := SquareMatrix.inverse_one hS.toIsRing hentry hx fun y => hS.div y x hx
  have hrows : rowsOf r.toMatrix.transpose = [[x⁻¹]] := by
    rw [← hrx]
    rfl
  rw [hinverse, hr, ← ofColumns_one_eq_ok hS.isZero_zero hinv, ← hrows]
  rfl

/-- Composed with that inverse, it gives zero. -/
theorem comp_inverse_scaling (hS : S.IsTolerant ε) {x : α} (hx : S.isZero x = false)
    (hinv : S.isZero x⁻¹ = true) :
    ∃ f h, ofColumns S 1 [[x]] = .ok f ∧ f.inverse S = .ok ⟨1, [∅]⟩ ∧
      f.comp S ⟨1, [∅]⟩ = .ok h ∧ h.matrix S = [[0]] := by
  obtain ⟨f, hf, hwf, hd, ht, hmatrix⟩ := ofColumns_spec_cut hS.toIsRing hS.isZero_zero
    (show 1 ≤ maxDimension by decide) (Matrix.of fun _ _ : Fin 1 => x)
  have hentry : f.toMatrix S 1 1 0 0 = x := by
    rw [hmatrix]
    exact Scalars.cut_of_not_isZero hx
  have hg := inverse_scaling hS hd ht hentry hx hinv
  obtain ⟨h, hh, hhd, hht, hproduct⟩ := abs_comp_inverse_sub_le hS hwf hd ht hg
  have hempty : (⟨1, [∅]⟩ : Outermorphism α).toMatrix S 1 1 0 0 = 0 :=
    toMatrix_eq_zero_of_image (n := 1) hS.toIsRing rfl rfl 0 rfl
  have hzero : h.toMatrix S 1 1 0 0 = 0 := by
    rw [(hproduct 0 0).1, Matrix.mul_apply, Fin.sum_univ_one, hempty, mul_zero, S.cut_zero]
  refine ⟨f, h, hf, hg, hh, ?_⟩
  rw [matrix_eq_rowsOf hS.toIsRing hht hhd]
  change [[h.toMatrix S 1 1 0 0]] = [[0]]
  rw [hzero]

end Field

theorem domain_eq_target_of_inverse {S : Scalars α} {f g : Outermorphism α}
    (hg : f.inverse S = .ok g) : f.domain = f.target := by
  by_contra hne
  rw [inverse, requireSquare, if_pos hne] at hg
  cases hg

/-! ## A map that is not undone -/

/-- Sends `e₀` to `e₀ / 2 + e₁ / 5` and `e₁` to itself. -/
def lopsided : Outermorphism Rat :=
  ⟨2, [Multivector.ofBlades [(1, 1 / 2), (2, 1 / 5)], .ofBlades [(2, 1)]].map Multivector.toTerms⟩

theorem built_lopsided : lopsided.Built := by
  have h : Outermorphism.ofImages 2 2 [.ofBlades [(1, 1 / 2), (2, 1 / 5)], .ofBlades [(2, 1)]]
      = .ok lopsided := by cbv
  exact .ofImages h

/-- Sends `e₀` to `2 e₀` and `e₁` to itself. -/
def doubling : Outermorphism Rat :=
  ⟨2, [Multivector.ofBlades [(1, 2)], .ofBlades [(2, 1)]].map Multivector.toTerms⟩

/-- Elimination leaves out the row of `1 / 5`. -/
theorem inverse_lopsided :
    lopsided.inverse (Coefficient.approximate (1 / 4)) = .ok doubling := by
  have hmatrix : lopsided.matrix (Coefficient.approximate (1 / 4)) = [[1 / 2, 0], [1 / 5, 1]] := by
    cbv
  have hrows : SquareMatrix.inverseOfRows (Coefficient.approximate (1 / 4 : Rat))
      [[1 / 2, 0], [1 / 5, 1]] = .ok [[2, 0], [0, 1]] := by
    decide +kernel
  rw [inverse, hmatrix, hrows]
  cbv

/-! ## The law of inverses -/

/-- **How far an inverse is one.** Composed with its inverse, a map is off the identity in no entry
    by more than the tolerance times the sizes of a row of the map and of a column of the inverse.
    Where that is less than one, no image of the inverse is empty; and every entry is that of the
    product of the matrices, or is dropped. But a map that scales a vector to such a size that the
    inverse of the factor is within the tolerance has an inverse whose only image is empty, and
    composed with it gives zero. -/
theorem comp_inverse_near {ε : Rat} {S : Scalars Rat} (hS : Coefficient.ofTolerance ε = .ok S) :
    (∀ f g : Outermorphism Rat, f.Built → f.inverse S = .ok g →
      ∃ h, f.comp S g = .ok h ∧ h.domain = f.domain ∧ h.target = f.domain ∧
        ∀ i j : Fin f.domain,
          h.toMatrix S f.domain f.domain i j
            = S.cut ((f.toMatrix S f.domain f.domain * g.toMatrix S f.domain f.domain) i j) ∧
          |h.toMatrix S f.domain f.domain i j - (1 : Matrix (Fin f.domain) (Fin f.domain) Rat) i j|
            ≤ roundTripError S ε f g f.domain i j ∧
          (roundTripError S ε f g f.domain j j < 1 → g.images[j]? ≠ some ∅)) ∧
    ∀ x, ε < |x| → |x⁻¹| ≤ ε →
      ∃ f h, ofColumns S 1 [[x]] = .ok f ∧ f.inverse S = .ok ⟨1, [∅]⟩ ∧
        f.comp S ⟨1, [∅]⟩ = .ok h ∧ h.matrix S = [[0]] := by
  obtain ⟨hε, rfl⟩ := Coefficient.ofTolerance_eq_ok_iff.mp hS
  have hT := Coefficient.isTolerant_approximate hε
  refine ⟨fun f g hf hg => ?_, fun x hx hinv => ?_⟩
  · have hsquare := (domain_eq_target_of_inverse hg).symm
    obtain ⟨-, hgd, hgt, -⟩ := exists_nearInverse hT hf.wellFormed rfl hsquare hg
    obtain ⟨h, hh, hd, ht, hentries⟩ := abs_comp_inverse_sub_le hT hf.wellFormed rfl hsquare hg
    refine ⟨h, hh, hd, ht, fun i j => ⟨(hentries i j).1, (hentries i j).2, fun hlt hempty => ?_⟩⟩
    -- an empty image leaves a zero on the diagonal
    obtain ⟨hentry, herror⟩ := hentries j j
    have hzero : (f.toMatrix (Coefficient.approximate ε) f.domain f.domain
        * g.toMatrix (Coefficient.approximate ε) f.domain f.domain) j j = 0 := by
      rw [Matrix.mul_apply]
      refine Finset.sum_eq_zero fun k _ => ?_
      rw [toMatrix_eq_zero_of_image hT.toIsRing hgd hgt k hempty, mul_zero]
    rw [hentry, hzero, Scalars.cut_zero, Matrix.one_apply_eq, zero_sub, abs_neg, abs_one] at herror
    exact absurd hlt (not_lt.mpr herror)
  · refine comp_inverse_scaling hT ?_ (Coefficient.isZero_approximate.mpr hinv)
    rw [← Bool.not_eq_true, Coefficient.isZero_approximate]
    exact not_le.mpr hx

/-- The map that the tolerance `1 / 4` keeps from being undone, and one that scales a vector. -/
theorem comp_inverse_near_quarter :
    let S : Scalars Rat := Coefficient.approximate (1 / 4)
    (∃ h, lopsided.inverse S = .ok doubling ∧ lopsided.comp S doubling = .ok h ∧
      h.matrix S = [[1, 0], [2 / 5, 1]] ∧ ∀ i j : Fin 2,
        |h.toMatrix S 2 2 i j - (1 : Matrix (Fin 2) (Fin 2) Rat) i j|
          ≤ roundTripError S (1 / 4) lopsided doubling 2 i j) ∧
    ∃ f h, ofColumns S 1 [[8]] = .ok f ∧ f.inverse S = .ok ⟨1, [∅]⟩ ∧
      f.comp S ⟨1, [∅]⟩ = .ok h ∧ h.matrix S = [[0]] := by
  intro S
  have hS : Coefficient.ofTolerance (1 / 4 : Rat) = .ok S :=
    Coefficient.ofTolerance_eq_ok_iff.mpr ⟨by norm_num, rfl⟩
  obtain ⟨hnear, hscaling⟩ := comp_inverse_near hS
  refine ⟨?_, hscaling 8 (by norm_num) (by norm_num [abs_of_pos])⟩
  obtain ⟨h, hh, -, -, hentries⟩ := hnear lopsided doubling built_lopsided inverse_lopsided
  have hmatrix : (lopsided.comp (Coefficient.approximate (1 / 4)) doubling).map
      (matrix (Coefficient.approximate (1 / 4))) = .ok [[1, 0], [2 / 5, 1]] := by cbv
  rw [hh] at hmatrix
  exact ⟨h, inverse_lopsided, hh, Except.ok.inj hmatrix, fun i j => (hentries i j).2.1⟩

end Outermorphism

end GeometricAlgebra

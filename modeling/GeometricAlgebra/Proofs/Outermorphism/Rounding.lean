import GeometricAlgebra.Proofs.Algebra.Size
import GeometricAlgebra.Proofs.Outermorphism.Tolerance

set_option autoImplicit false

/-! # Errors of maps with a tolerance

The walk over images drops coefficients after every factor, and a factor that follows magnifies what
was dropped before (`familySize_runningImage_sub_le`). So a map is off its exact extension by the
tolerance times the number of coefficients, the sizes of the images and that of the operand
(`familySize_mapped_sub_le`).

A map and its inverse nearly undo each other on vectors, column by column
(`SquareMatrix.NearInverse.sum_abs_mul_sub_one_le`), and so on all blades
(`familySize_extension_inverse_sub_le`). -/

namespace GeometricAlgebra

open Blade

variable {α : Type} {n : Nat}

/-! ## Dropped coefficients -/

section Dropped

variable [Field α] [LinearOrder α] [IsStrictOrderedRing α] {S : Scalars α} {ε l : α}
  {v : Nat → Nat → α}

theorem Scalars.IsTolerant.familySize_cut_sub_le (hS : S.IsTolerant ε) (n : Nat) (x : Nat → α) :
    familySize n ((fun r => S.cut (x r)) - x) ≤ 2 ^ n * ε :=
  familySize_le_of_abs_le fun r _ => hS.abs_cut_sub_le (x r)

/-- Each factor magnifies what was dropped before it. -/
theorem BladeTree.familySize_runningImage_sub_le (hS : S.IsTolerant ε) (hl : 1 ≤ l) {b k : Nat}
    (hv : ∀ i < k, familySize n (v i) ≤ l) (hb : b < 2 ^ k) (x : Nat → α) :
    familySize n (runningImage S v b x - outerProduct (bladeImage v b) x)
      ≤ k * l ^ k * (2 ^ n * ε) := by
  have hε := hS.nonneg
  induction b using topInduction generalizing k x with
  | zero =>
      rw [runningImage_zero, bladeImage_zero, outerProduct_blade_zero_left, sub_self]
      have hzero : familySize n (0 : Nat → α) = 0 := by simp [familySize]
      rw [hzero]
      positivity
  | top c u hu ih =>
      have hc : c < k := lt_of_two_pow_add_lt hb
      have hv' : ∀ i < c, familySize n (v i) ≤ l := fun i hi => hv i (hi.trans hc)
      -- the running product after this vector, and what it should be
      have hdropped := hS.familySize_cut_sub_le n (outerProduct (v c) x)
      have hrest := ih hv' hu fun r => S.cut (outerProduct (v c) x r)
      have hmagnified : familySize n (outerProduct (bladeImage v u)
          ((fun r => S.cut (outerProduct (v c) x r)) - outerProduct (v c) x))
            ≤ l ^ c * (2 ^ n * ε) :=
        (familySize_outerProduct_le n _ _).trans (mul_le_mul
          (familySize_bladeImage_le hl hv' hu) hdropped (familySize_nonneg _ _) (by positivity))
      have hsplit : runningImage S v (2 ^ c + u) x - outerProduct (bladeImage v (2 ^ c + u)) x
          = (runningImage S v u (fun r => S.cut (outerProduct (v c) x r))
              - outerProduct (bladeImage v u) fun r => S.cut (outerProduct (v c) x r))
            + outerProduct (bladeImage v u)
              ((fun r => S.cut (outerProduct (v c) x r)) - outerProduct (v c) x) := by
        rw [runningImage_add_top hu, bladeImage_add_top v hu, outerProduct_assoc,
          outerProduct_sub_right]
        abel
      calc familySize n (runningImage S v (2 ^ c + u) x
            - outerProduct (bladeImage v (2 ^ c + u)) x)
          ≤ c * l ^ c * (2 ^ n * ε) + l ^ c * (2 ^ n * ε) := by
            rw [hsplit]
            exact (familySize_add_le n _ _).trans (add_le_add hrest hmagnified)
        _ = (c + 1 : Nat) * l ^ c * (2 ^ n * ε) := by
            push_cast
            ring
        _ ≤ k * l ^ k * (2 ^ n * ε) := by
            gcongr
            exact hc

/-- What the walk computes is near the extension. -/
theorem Outermorphism.familySize_runningExtension_sub_le (hS : S.IsTolerant ε) (hl : 1 ≤ l)
    {k : Nat} (hv : ∀ i < k, familySize n (v i) ≤ l) (x : Nat → α) :
    familySize n (runningExtension S k v x - extension k v x)
      ≤ k * l ^ k * (2 ^ n * ε) * familySize k x := by
  have hsum : runningExtension S k v x - extension k v x
      = ∑ b ∈ Finset.range (2 ^ k),
          x b • (BladeTree.runningImage S v b (bladeFamily 0) - bladeImage v b) := by
    funext r
    simp only [Pi.sub_apply, runningExtension, extension_apply, Finset.sum_apply, Pi.smul_apply,
      smul_eq_mul, mul_sub, Finset.sum_sub_distrib]
  rw [hsum]
  refine familySize_sum_smul_le x fun b hb => ?_
  have hblade := BladeTree.familySize_runningImage_sub_le hS hl hv hb (bladeFamily 0)
  rwa [outerProduct_blade_zero_right] at hblade

end Dropped

/-! ## Columns -/

section Columns

variable [Field α] [LinearOrder α] [IsStrictOrderedRing α] {ε : α}
  {M G N T : Matrix (Fin n) (Fin n) α}

namespace SquareMatrix

/-- The size of a matrix, and one more. -/
def entrySize (M : Matrix (Fin n) (Fin n) α) : α := 1 + ∑ i, ∑ j, |M i j|

theorem one_le_entrySize (M : Matrix (Fin n) (Fin n) α) : 1 ≤ entrySize M :=
  le_add_of_nonneg_right (Finset.sum_nonneg fun _ _ => Finset.sum_nonneg fun _ _ => abs_nonneg _)

theorem one_add_row_le_entrySize (M : Matrix (Fin n) (Fin n) α) (i : Fin n) :
    1 + ∑ j, |M i j| ≤ entrySize M := by
  have hrow : ∑ j, |M i j| ≤ ∑ i, ∑ j, |M i j| := Finset.single_le_sum (f := fun i => ∑ j, |M i j|)
    (fun _ _ => Finset.sum_nonneg fun _ _ => abs_nonneg _) (Finset.mem_univ i)
  exact add_le_add_right hrow 1

theorem column_le_entrySize (M : Matrix (Fin n) (Fin n) α) (j : Fin n) :
    ∑ i, |M i j| ≤ entrySize M := by
  have hcolumns : ∑ i, |M i j| ≤ ∑ i, ∑ j, |M i j| := Finset.sum_le_sum fun i _ =>
    Finset.single_le_sum (f := fun j => |M i j|) (fun _ _ => abs_nonneg _) (Finset.mem_univ j)
  exact hcolumns.trans (le_add_of_nonneg_left zero_le_one)

theorem NearInverse.sum_abs_le (h : NearInverse ε M G N T) :
    ∑ i, ∑ k, |N i k| ≤ entrySize G + n * n * ε :=
  calc ∑ i, ∑ k, |N i k| ≤ ∑ i, ∑ k, (|G i k| + ε) :=
        Finset.sum_le_sum fun i _ => Finset.sum_le_sum fun k _ => h.abs_le i k
    _ = ∑ i, ∑ k, |G i k| + n * n * ε := by
        simp only [Finset.sum_add_distrib, Finset.sum_const, Finset.card_univ, Fintype.card_fin,
          nsmul_eq_mul, mul_assoc]
    _ ≤ entrySize G + n * n * ε := by
        gcongr
        exact le_add_of_nonneg_left zero_le_one

/-- How far the product of a matrix of size `l` and an inverse of size `g` is off the identity in a
    column, in units of the tolerance. -/
def columnError (n : Nat) (ε l g : α) : α := (1 + ε) ^ n * l * (g + n * n * ε) + n * l

theorem columnError_nonneg {l g : α} (hε : 0 ≤ ε) (hl : 0 ≤ l) (hg : 0 ≤ g) (n : Nat) :
    0 ≤ columnError n ε l g := by
  rw [columnError]
  positivity

/-- The product in the other order, a column at a time. -/
theorem NearInverse.sum_abs_mul_sub_one_le (h : NearInverse ε M G N T) (j : Fin n) :
    ∑ i, |(G * M - 1) i j| ≤ ε * columnError n ε (entrySize M) (entrySize G) := by
  have hε := h.nonneg
  have hsplit : G * M - 1 = N * (M - T) + (G - N) * M := by
    rw [Matrix.sub_mul, Matrix.mul_sub, h.inverse]
    abel
  have hsource : ∀ k, |(M - T) k j| ≤ ε * ((1 + ε) ^ n * entrySize M) := fun k =>
    (h.source k j).trans (by
      gcongr
      exact one_add_row_le_entrySize M k)
  have hsize := h.sum_abs_le
  have hentry : ∀ i, |(G * M - 1) i j|
      ≤ ∑ k, |N i k| * (ε * ((1 + ε) ^ n * entrySize M)) + ∑ k, ε * |M k j| := by
    intro i
    rw [hsplit, Matrix.add_apply, Matrix.mul_apply, Matrix.mul_apply]
    refine (abs_add_le _ _).trans (add_le_add ?_ ?_)
    · refine (Finset.abs_sum_le_sum_abs _ _).trans (Finset.sum_le_sum fun k _ => ?_)
      rw [abs_mul]
      exact mul_le_mul_of_nonneg_left (hsource k) (abs_nonneg _)
    · refine (Finset.abs_sum_le_sum_abs _ _).trans (Finset.sum_le_sum fun k _ => ?_)
      rw [abs_mul]
      exact mul_le_mul_of_nonneg_right (h.result i k) (abs_nonneg _)
  calc ∑ i, |(G * M - 1) i j|
      ≤ ∑ i, (∑ k, |N i k| * (ε * ((1 + ε) ^ n * entrySize M)) + ∑ k, ε * |M k j|) :=
        Finset.sum_le_sum fun i _ => hentry i
    _ = (∑ i, ∑ k, |N i k|) * (ε * ((1 + ε) ^ n * entrySize M)) + n * (ε * ∑ k, |M k j|) := by
        simp only [Finset.sum_add_distrib, ← Finset.sum_mul, ← Finset.mul_sum, Finset.sum_const,
          Finset.card_univ, Fintype.card_fin, nsmul_eq_mul, mul_assoc]
    _ ≤ (entrySize G + n * n * ε) * (ε * ((1 + ε) ^ n * entrySize M)) + n * (ε * entrySize M) := by
        have hM := zero_le_one.trans (one_le_entrySize M)
        gcongr
        exact column_le_entrySize M j
    _ = ε * columnError n ε (entrySize M) (entrySize G) := by
        rw [columnError]
        ring

end SquareMatrix

end Columns

/-! ## Maps -/

namespace Outermorphism

variable [Field α] [LinearOrder α] [IsStrictOrderedRing α] {S : Scalars α} {ε : α}
  {f g : Outermorphism α}

/-- The size of a square map, and one more. -/
def size (S : Scalars α) (f : Outermorphism α) (n : Nat) : α :=
  SquareMatrix.entrySize (f.toMatrix S n n)

theorem one_le_size (S : Scalars α) (f : Outermorphism α) (n : Nat) : 1 ≤ f.size S n :=
  SquareMatrix.one_le_entrySize _

/-- The images of vectors are columns of the matrix. -/
theorem familySize_family_eq (hS : S.IsRing) (hf : f.WellFormed) (hd : f.domain = n)
    (ht : f.target = n) (j : Fin n) :
    familySize n (f.family j) = ∑ i, |f.toMatrix S n n i j| := by
  have hvector : OfGrade n 1 (f.family j) := ht ▸ hf.ofGrade j
  rw [familySize_of_vector hvector, Finset.sum_range]
  exact Finset.sum_congr rfl fun i _ => by rw [toMatrix_apply hS ht hd]

theorem familySize_family_le (hS : S.IsRing) (hf : f.WellFormed) (hd : f.domain = n)
    (ht : f.target = n) {i : Nat} (hi : i < n) : familySize n (f.family i) ≤ f.size S n := by
  have hcolumn := familySize_family_eq hS hf hd ht ⟨i, hi⟩
  rw [hcolumn]
  exact SquareMatrix.column_le_entrySize _ _

/-- How far a map of size `l` is off its extension on an operand of size `s`, in units of the
    tolerance. -/
def mapError (n : Nat) (l s : α) : α := 2 ^ n * (1 + n * l ^ n * s)

/-- How far the outer product of two mapped operands is off, in units of the tolerance. The map has
    the size `l` and the operands have the sizes `s` and `t`. -/
def mappedError (n : Nat) (ε l s t : α) : α :=
  mapError n l s * (l ^ n * t + ε * mapError n l t) + l ^ n * s * mapError n l t + 2 ^ n

/-- The coefficients of the image of a family, as they are computed. -/
def mapped (S : Scalars α) (f : Outermorphism α) (x : Nat → α) (r : Nat) : α :=
  S.cut (runningExtension S f.domain f.family x r)

omit [IsStrictOrderedRing α] in
theorem map_mapped (hS : S.IsTolerant ε) (hf : f.WellFormed) (hd : f.domain = n)
    (ht : f.target = n) {mv : Multivector α} {x : Nat → α} (h : mv.HasCoeffs n x) :
    ∃ m, f.map S mv = .ok m ∧ m.HasCoeffs n (f.mapped S x) := by
  subst hd
  obtain ⟨m, hm, rm⟩ := map_spec_cut hS.toIsRing hS.isZero_zero hf h
  rw [ht] at rm
  exact ⟨m, hm, rm.hasCoeffs_cut hS.isZero_zero hf.domain_le⟩

omit [LinearOrder α] [IsStrictOrderedRing α] in
/-- A basis vector is mapped to its image. -/
theorem mapped_ofVector (S : Scalars α) (f : Outermorphism α) {i : Nat} (hi : i < f.domain) :
    f.mapped S (bladeFamily (ofVector i)) = fun r => S.cut (f.family i r) := by
  funext r
  have himage : BladeTree.runningImage S f.family (ofVector i) (bladeFamily 0)
      = fun r => S.cut (f.family i r) := by
    have htop := BladeTree.runningImage_add_top (S := S) (v := f.family) (Nat.two_pow_pos i)
      (bladeFamily 0)
    rwa [Nat.add_zero, BladeTree.runningImage_zero, outerProduct_blade_zero_right,
      ← Nat.one_shiftLeft] at htop
  rw [mapped, runningExtension_bladeFamily (ofVector_lt_iff.mpr hi), himage, S.cut_cut]

/-- **A map is near its extension.** -/
theorem familySize_mapped_sub_le (hS : S.IsTolerant ε) (hf : f.WellFormed) (hd : f.domain = n)
    (ht : f.target = n) {x : Nat → α} {s : α} (hs : familySize n x ≤ s) :
    familySize n (f.mapped S x - extension n f.family x) ≤ ε * mapError n (f.size S n) s := by
  subst hd
  have hl := f.one_le_size S f.domain
  have hε := hS.nonneg
  have hwalk := familySize_runningExtension_sub_le hS hl
    (fun i hi => familySize_family_le hS.toIsRing hf rfl ht hi) x
  calc familySize f.domain (f.mapped S x - extension f.domain f.family x)
      ≤ 2 ^ f.domain * ε
          + f.domain * f.size S f.domain ^ f.domain * (2 ^ f.domain * ε) * familySize f.domain x :=
        (familySize_sub_le _ _ (runningExtension S f.domain f.family x) _).trans
          (add_le_add (hS.familySize_cut_sub_le _ _) hwalk)
    _ ≤ 2 ^ f.domain * ε + f.domain * f.size S f.domain ^ f.domain * (2 ^ f.domain * ε) * s := by
        have hl' := zero_le_one.trans hl
        gcongr
    _ = ε * mapError f.domain (f.size S f.domain) s := by
        rw [mapError]
        ring

theorem near_mapped (hS : S.IsTolerant ε) (hf : f.WellFormed) (hd : f.domain = n)
    (ht : f.target = n) {x : Nat → α} {s : α} (hs : familySize n x ≤ s) :
    Near n (f.size S n ^ n * s) (ε * mapError n (f.size S n) s) (extension n f.family x)
      (f.mapped S x) where
  size_le := by
    have hl := f.one_le_size S n
    have hl' := zero_le_one.trans hl
    refine (familySize_extension_le hl (fun i hi =>
      familySize_family_le hS.toIsRing hf hd ht hi) x).trans ?_
    gcongr
  error_le := familySize_mapped_sub_le hS hf hd ht hs

/-- Mapped operands have nearly the outer product that is mapped. -/
theorem near_outerProduct_mapped (hS : S.IsTolerant ε) (hf : f.WellFormed) (hd : f.domain = n)
    (ht : f.target = n) {x y : Nat → α} {s t : α} (hx : familySize n x ≤ s)
    (hy : familySize n y ≤ t) :
    Near n (f.size S n ^ n * s * (f.size S n ^ n * t)) (ε * mappedError n ε (f.size S n) s t)
      (extension n f.family (outerProduct x y))
      (fun r => S.cut (outerProduct (f.mapped S x) (f.mapped S y) r)) := by
  have hproduct := ((near_mapped hS hf hd ht hx).outerProduct (near_mapped hS hf hd ht hy)).trans
    (hS.familySize_cut_sub_le n _)
  rw [← extension_outerProduct fun i => ht ▸ hf.ofGrade i] at hproduct
  refine ⟨hproduct.size_le, hproduct.error_le.trans_eq ?_⟩
  rw [mappedError]
  ring

/-- On vectors a map and its inverse give a column of the product of their matrices. -/
theorem familySize_inverse_family_sub_le (hS : S.IsTolerant ε) (hf : f.WellFormed)
    (hd : f.domain = n) (ht : f.target = n) (hg : f.inverse S = .ok g) {j : Nat} (hj : j < n) :
    familySize n (extension n g.family (f.family j) - bladeFamily (ofVector j))
      ≤ ε * SquareMatrix.columnError n ε (f.size S n) (g.size S n) := by
  obtain ⟨hwg, hgd, hgt, N, T, hnear⟩ := exists_nearInverse hS hf hd ht hg
  have hR := hS.toIsRing
  have hvector : OfGrade n 1 (f.family j) := ht ▸ hf.ofGrade j
  have himage := hvector.extension fun i => hgt ▸ hwg.ofGrade i
  have hbasis : OfGrade n 1 (bladeFamily (ofVector j) : Nat → α) :=
    grade_ofVector j ▸ ofGrade_bladeFamily (ofVector_lt_iff.mpr hj)
  rw [familySize_of_vector (himage.sub hbasis), Finset.sum_range]
  refine (Finset.sum_congr rfl fun i _ => ?_).trans_le (hnear.sum_abs_mul_sub_one_le ⟨j, hj⟩)
  have hentry := extension_family_ofVector hR hf hgt hgd ht hd i ⟨j, hj⟩
  rw [hgd] at hentry
  rw [Pi.sub_apply, hentry, Matrix.sub_apply, bladeFamily, Matrix.one_apply]
  simp only [ofVector_injective.eq_iff, Fin.ext_iff]

/-- **A map and its inverse nearly undo each other.** -/
theorem familySize_extension_inverse_sub_le (hS : S.IsTolerant ε) (hf : f.WellFormed)
    (hd : f.domain = n) (ht : f.target = n) (hg : f.inverse S = .ok g) (x : Nat → α) :
    familySize n (extension n g.family (extension n f.family x) - x)
      ≤ n * (1 + ε * SquareMatrix.columnError n ε (f.size S n) (g.size S n)) ^ n
        * (ε * SquareMatrix.columnError n ε (f.size S n) (g.size S n)) * familySize n x := by
  obtain ⟨hwg, -, hgt, -⟩ := exists_nearInverse hS hf hd ht hg
  have hcolumn : ∀ j < n, familySize n
      (extension n g.family (f.family j) - bladeFamily (ofVector j))
        ≤ ε * SquareMatrix.columnError n ε (f.size S n) (g.size S n) := fun j hj =>
    familySize_inverse_family_sub_le hS hf hd ht hg hj
  have hδ : 0 ≤ ε * SquareMatrix.columnError n ε (f.size S n) (g.size S n) :=
    mul_nonneg hS.nonneg (SquareMatrix.columnError_nonneg hS.nonneg
      (zero_le_one.trans (f.one_le_size S n)) (zero_le_one.trans (g.one_le_size S n)) n)
  -- the images of vectors under both maps, and the vectors, give near extensions
  have hsize : ∀ j < n, familySize n (bladeFamily (ofVector j) : Nat → α)
      ≤ 1 + ε * SquareMatrix.columnError n ε (f.size S n) (g.size S n) := fun j _ =>
    (familySize_bladeFamily_le n _).trans (le_add_of_nonneg_right hδ)
  have hsize' : ∀ j < n, familySize n (extension n g.family (f.family j))
      ≤ 1 + ε * SquareMatrix.columnError n ε (f.size S n) (g.size S n) := fun j hj =>
    Near.computed_le ⟨familySize_bladeFamily_le n (ofVector j), hcolumn j hj⟩
  have hextension := familySize_extension_sub_le (le_add_of_nonneg_right hδ) hδ hsize' hsize
    hcolumn x
  rw [← extension_extension fun i => hgt ▸ hwg.ofGrade i]
  refine (familySize_congr fun r hr => ?_).trans_le hextension
  rw [Pi.sub_apply, Pi.sub_apply, extension_eq_ite (fun _ _ => rfl), if_pos hr]

end Outermorphism

end GeometricAlgebra

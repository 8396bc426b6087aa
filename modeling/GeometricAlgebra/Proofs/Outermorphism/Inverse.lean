import GeometricAlgebra.Proofs.Elimination
import GeometricAlgebra.Proofs.Outermorphism.Determinant

set_option autoImplicit false

/-! # Inverses of outermorphisms

The inverse of a map has the inverse matrix: elimination takes the rows of the matrix
(`inverseOfRows_rowsOf`), and what it gives is turned into a map column by column
(`ofColumns_spec`). As a composition multiplies matrices, both ways of composing the two maps give
the matrix of the identity; and a map without an inverse is one whose determinant is zero. -/

namespace GeometricAlgebra

open Blade

variable {α : Type}

/-! ## Rows of stored matrices -/

namespace SquareMatrix

open Outermorphism (rowsOf)

theorem rowsOf_injective {m n : Nat} :
    Function.Injective (rowsOf : Matrix (Fin m) (Fin n) α → List (List α)) := by
  intro M N h
  ext i j
  exact congrFun (List.ofFn_injective (congrFun (List.ofFn_injective h) i)) j

theorem length_rowsOf {m n : Nat} (M : Matrix (Fin m) (Fin n) α) : (rowsOf M).length = m :=
  List.length_ofFn

theorem length_of_mem_rowsOf {m n : Nat} {M : Matrix (Fin m) (Fin n) α} {row : List α}
    (h : row ∈ rowsOf M) : row.length = n := by
  obtain ⟨i, rfl⟩ := List.mem_ofFn.mp h
  exact List.length_ofFn

theorem toRows_eq_rowsOf {n : Nat} (m : SquareMatrix α n) : m.toRows = rowsOf m.toMatrix := by
  refine List.ext_getElem (by simp [toRows, rowsOf]) fun i _ _ => ?_
  refine List.ext_getElem (by simp [toRows, rowsOf]) fun j _ _ => ?_
  simp [toRows, rowsOf, toMatrix, Vector.get_eq_getElem]

/-- A list of rows is stored iff it is square, and then it is what was stored. -/
theorem ofRows?_eq_some {rows : List (List α)} (h : ∀ row ∈ rows, row.length = rows.length) :
    ∃ m, ofRows? rows = some m ∧ m.toRows = rows := by
  refine ⟨_, dif_pos h, ?_⟩
  refine List.ext_getElem (by simp [toRows]) fun i _ hi => ?_
  simp [toRows]

variable [Field α] {S : Scalars α} {n : Nat}

omit [Field α] in
/-- Rows of a square matrix are inverted as the matrix is. -/
theorem exists_inverseOfRows_eq (S : Scalars α) (M : Matrix (Fin n) (Fin n) α) :
    ∃ m : SquareMatrix α n, m.toMatrix = M ∧
      inverseOfRows S (rowsOf M) = do return rowsOf (← inverse S m).toMatrix := by
  have hsquare : ∀ row ∈ rowsOf M, row.length = (rowsOf M).length := fun row hrow => by
    rw [length_of_mem_rowsOf hrow, length_rowsOf]
  obtain ⟨m, hm, hrows⟩ := ofRows?_eq_some hsquare
  have hlength := length_rowsOf M
  -- the stored matrix has as many rows as the list, which is `n` of them
  generalize hlist : rowsOf M = rows at *
  subst hlength
  rw [toRows_eq_rowsOf] at hrows
  refine ⟨m, (rowsOf_injective (hlist.trans hrows.symm)).symm, ?_⟩
  rw [inverseOfRows, hm]
  simp only [toRows_eq_rowsOf]

theorem inverseOfRows_rowsOf (hS : S.IsField) (hE : S.IsExact) (M : Matrix (Fin n) (Fin n) α) :
    (∃ N, inverseOfRows S (rowsOf M) = .ok (rowsOf N) ∧ N * M = 1) ∨
      ∃ e, inverseOfRows S (rowsOf M) = .error e ∧ e.kind = .singular ∧ M.det = 0 := by
  obtain ⟨m, rfl, hrows⟩ := exists_inverseOfRows_eq S M
  rw [hrows]
  rcases inverse_spec hS hE m with ⟨r, hr, hproduct⟩ | ⟨e, he, hkind, hdet⟩
  · refine Or.inl ⟨r.toMatrix, ?_, hproduct⟩
    rw [hr]
    rfl
  · refine Or.inr ⟨e, ?_, hkind, hdet⟩
    rw [he]
    rfl

omit [Field α] in
theorem inverseOfRows_of_ragged {rows : List (List α)}
    (h : ∃ row ∈ rows, row.length ≠ rows.length) :
    inverseOfRows S rows = .error .notSquare := by
  have hnone : ofRows? rows = none := dif_neg fun hall => by
    obtain ⟨row, hrow, hne⟩ := h
    exact hne (hall row hrow)
  rw [inverseOfRows, hnone]

end SquareMatrix

/-! ## Vectors from coordinates -/

namespace Multivector

variable {n : Nat} {coordinates : List α}

theorem getElem?_coordinates (coordinates : List α) (i : Nat) :
    (Std.ExtTreeMap.ofList (coordinates.zipIdx.map fun c => (c.2, c.1)) : Terms α)[i]?
      = coordinates[i]? := by
  have hkeys : ((coordinates.zipIdx.map fun c => (c.2, c.1)).map Prod.fst).Nodup := by
    rw [List.map_map]
    have hsnd : (Prod.fst ∘ fun c : α × Nat => (c.2, c.1)) = Prod.snd := rfl
    rw [hsnd, List.zipIdx_map_snd]
    exact List.nodup_range'
  refine Option.ext fun v => ?_
  rw [Terms.getElem?_ofList_iff hkeys, List.mem_map]
  constructor
  · rintro ⟨⟨w, j⟩, hmem, heq⟩
    cases heq
    exact List.mem_zipIdx_iff_getElem?.mp hmem
  · exact fun h => ⟨(v, i), List.mem_zipIdx_iff_getElem?.mpr h, rfl⟩

theorem inRange_vector (h : coordinates.length = n) : (vector coordinates).InRange n := by
  intro r hr
  obtain ⟨v, hv⟩ := Terms.mem_iff_exists_getElem?.mp hr
  rw [getElem?_coordinates] at hv
  rw [Nat.choose_one_right, ← h]
  exact (List.getElem?_eq_some_iff.mp hv).1

variable [CommRing α]

theorem coeff_vector {i : Nat} (hi : i ≤ maxDimension) :
    (vector coordinates).coeff (ofVector i) = coordinates.getD i 0 := by
  rw [vector, dense, ofRanks, coeff, get?, if_pos (grade_ofVector i), rank_ofVector hi,
    getElem?_coordinates, List.getD_eq_getElem?_getD]

end Multivector

namespace Outermorphism

section Columns

variable [CommRing α] {S : Scalars α} {n : Nat}

theorem ofColumn_spec (h0 : S.isZero 0 = true) (hn : n ≤ maxDimension) {column : List α}
    (hlength : column.length = n) :
    ∃ m, ofColumn S n column = .ok m ∧
      (m.InRange n ∧ ∀ t ∈ m.terms, grade t.1 = 1) ∧
      ∀ i < n, Terms.coeff m.toTerms (ofVector i) = S.cut (column.getD i 0) := by
  have hrange := Multivector.inRange_vector hlength
  have hvector : Multivector.vectorIn n column = .ok (.vector column) := by
    rw [Multivector.vectorIn, if_pos hlength, Multivector.checked,
      (Multivector.validate_eq_ok_iff n _).mpr ⟨hn, hrange⟩]
    rfl
  have hterms : ∀ b ∈ (Multivector.vector column).toTerms, b < 2 ^ n ∧ grade b = 1 := by
    intro b hb
    obtain ⟨v, hv⟩ := Terms.mem_iff_exists_getElem?.mp hb
    exact Multivector.lt_of_mem_gradeTerms hn hrange
      ((Multivector.getElem?_toTerms_iff hn hrange).mp hv)
  obtain ⟨m, hm, hcoeffs, hgrade⟩ := Multivector.ofOneGrade_spec_cut h0 hn
    (fun b hb => (hterms b hb).1) fun b hb => (hterms b hb).2
  refine ⟨m, ?_, ⟨hcoeffs.inRange, hgrade⟩, fun i hi => ?_⟩
  · rw [ofColumn, hvector]
    exact hm
  · have hlt := ofVector_lt_iff.mpr hi
    rw [Multivector.coeff_toTerms hn hcoeffs.inRange, if_pos hlt, hcoeffs.coeff_eq _ hlt,
      Multivector.coeff_toTerms hn hrange, if_pos hlt, Multivector.coeff_vector (hi.le.trans hn)]

/-- **The matrix of a map has the columns that it was built from**, without the entries that count
    as zero. -/
theorem ofColumns_spec_cut (hS : S.IsRing) (h0 : S.isZero 0 = true) (hn : n ≤ maxDimension)
    (M : Matrix (Fin n) (Fin n) α) :
    ∃ f, ofColumns S n (rowsOf M.transpose) = .ok f ∧ f.WellFormed ∧ f.domain = n ∧
      f.target = n ∧ f.toMatrix S n n = M.map S.cut := by
  obtain ⟨images, himages, hforall⟩ := mapM_eq_ok fun column hcolumn =>
    ofColumn_spec (S := S) h0 hn (SquareMatrix.length_of_mem_rowsOf (M := M.transpose) hcolumn)
  have hlength := hforall.length_eq
  rw [SquareMatrix.length_rowsOf] at hlength
  have hvalid : ∀ image ∈ images, image.InRange n ∧ ∀ t ∈ image.terms, grade t.1 = 1 := by
    intro image himage
    obtain ⟨i, hi, rfl⟩ := List.mem_iff_getElem.mp himage
    exact (hforall.get (by rwa [hforall.length_eq]) hi).1
  have hok := ofImages_eq_ok_iff.mpr ⟨hn, hn, hlength.symm, hvalid, rfl⟩
  have hdomain := (domain_target_of_ofImages hok).1
  refine ⟨_, ?_, wellFormed_of_ofImages hok, hdomain, rfl, ?_⟩
  · rw [ofColumns, himages, SquareMatrix.length_rowsOf]
    exact hok
  · ext i j
    have hj : j < images.length := hlength ▸ j.isLt
    have hj' : j < (rowsOf M.transpose).length := by
      rw [SquareMatrix.length_rowsOf]
      exact j.isLt
    rw [toMatrix_apply hS rfl hdomain, family, BladeTree.imageFamily,
      List.getD_eq_getElem _ _ (by rwa [List.length_map]), List.getElem_map]
    refine ((hforall.get hj' hj).2 i i.isLt).trans ?_
    simp [rowsOf]

theorem ofColumns_spec (hS : S.IsRing) (hE : S.IsExact) (hn : n ≤ maxDimension)
    (M : Matrix (Fin n) (Fin n) α) :
    ∃ f, ofColumns S n (rowsOf M.transpose) = .ok f ∧ f.WellFormed ∧ f.domain = n ∧
      f.target = n ∧ f.toMatrix S n n = M := by
  have hcut : M.map S.cut = M := by
    ext i j
    exact hE.cut_eq (M i j)
  simpa only [hcut] using ofColumns_spec_cut hS hE.isZero_zero hn M

end Columns

/-! ## The inverse -/

/-- Sends `e₀` to `2 e₁` and `e₁` to `e₀ + 3 e₁`. -/
def skew : Outermorphism Rat :=
  ⟨2, [Multivector.ofBlades [(2, 2)], .ofBlades [(1, 1), (2, 3)]].map Multivector.toTerms⟩

theorem built_skew : skew.Built := by
  have h : Outermorphism.ofImages 2 2 [.ofBlades [(2, 2)], .ofBlades [(1, 1), (2, 3)]]
      = .ok skew := by cbv
  exact .ofImages h

section Inverse

variable [Field α] {S : Scalars α} {f : Outermorphism α} {n : Nat}

omit [Field α] in
/-- The columns that the inverse is built from are those of its rows. -/
theorem columns_rowsOf (S : Scalars α) (hd : f.domain = n) (N : Matrix (Fin n) (Fin n) α) :
    ((List.range f.domain).map fun column => (rowsOf N).map fun row => row.getD column S.zero)
      = rowsOf N.transpose := by
  subst hd
  refine List.ext_getElem (by simp [rowsOf]) fun j _ hj => ?_
  refine List.ext_getElem (by simp [rowsOf]) fun i _ _ => ?_
  have hlt : j < f.domain := by simpa [rowsOf] using hj
  simp [rowsOf, hlt]

/-- What elimination makes of the matrix of a square map decides on its inverse. -/
theorem inverse_eq_bind (hS : S.IsRing) (hd : f.domain = n) (ht : f.target = n) :
    ∃ m : SquareMatrix α n, m.toMatrix = f.toMatrix S n n ∧
      f.inverse S = SquareMatrix.inverse S m >>= fun r =>
        ofColumns S n (rowsOf r.toMatrix.transpose) := by
  have hsquare : f.requireSquare = .ok () := if_neg (not_not.mpr (hd.trans ht.symm))
  obtain ⟨m, hm, hrows⟩ := SquareMatrix.exists_inverseOfRows_eq S (f.toMatrix S n n)
  refine ⟨m, hm, ?_⟩
  rw [inverse, hsquare, matrix_eq_rowsOf hS ht hd, hrows, ht]
  cases SquareMatrix.inverse S m with
  | error e => rfl
  | ok r =>
      refine Eq.trans ?_ (congrArg (ofColumns S n) (columns_rowsOf S hd r.toMatrix))
      rfl

/-- **A square map has the inverse matrix's map as its inverse, or its determinant is zero.** -/
theorem inverse_spec (hS : S.IsField) (hE : S.IsExact) (hf : f.WellFormed) (hd : f.domain = n)
    (ht : f.target = n) :
    (∃ g, f.inverse S = .ok g ∧ g.WellFormed ∧ g.domain = n ∧ g.target = n ∧
      g.toMatrix S n n * f.toMatrix S n n = 1) ∨
    ∃ e, f.inverse S = .error e ∧ e.kind = .singular ∧ (f.toMatrix S n n).det = 0 := by
  obtain ⟨m, hm, hinverse⟩ := inverse_eq_bind hS.toIsRing hd ht
  rw [hinverse, ← hm]
  rcases SquareMatrix.inverse_spec hS hE m with ⟨r, hr, hproduct⟩ | ⟨e, he, hkind, hdet⟩
  · obtain ⟨g, hg, hwf, hgd, hgt, hmatrix⟩ :=
      ofColumns_spec hS.toIsRing hE (hd ▸ hf.domain_le) r.toMatrix
    refine Or.inl ⟨g, ?_, hwf, hgd, hgt, by rw [hmatrix, hproduct]⟩
    rw [hr]
    exact hg
  · refine Or.inr ⟨e, ?_, hkind, hdet⟩
    rw [he]
    rfl

/-- Composing maps with inverse matrices gives the matrix of the identity. -/
theorem comp_matrix_eq_one (hS : S.IsRing) (hE : S.IsExact) {g : Outermorphism α}
    (hf : f.WellFormed) (hg : g.WellFormed) (hfd : f.domain = n) (hft : f.target = n)
    (hgd : g.domain = n) (hgt : g.target = n)
    (hproduct : f.toMatrix S n n * g.toMatrix S n n = 1) :
    ∃ h, f.comp S g = .ok h ∧ h.matrix S = rowsOf (1 : Matrix (Fin n) (Fin n) α) := by
  obtain ⟨h, hh, -, hht, hhd, hfamily⟩ := comp_spec hS hE hf hg (hgt.trans hfd.symm)
  refine ⟨h, hh, ?_⟩
  rw [matrix_eq_rowsOf hS (hht.trans hft) (hhd.trans hgd),
    toMatrix_comp hS hg hft hfd hgt hgd (hht.trans hft) (hhd.trans hgd) hfamily, hproduct]

/-- The identity matrix sends every basis vector to itself, and it alone does. -/
theorem toMatrix_eq_one_iff {S : Scalars α} {f : Outermorphism α} (hS : S.IsRing)
    (hf : f.WellFormed) (hd : f.domain = n) (ht : f.target = n) :
    f.toMatrix S n n = 1 ↔ ∀ i < n, f.family i = bladeFamily (ofVector i) := by
  have hentry : ∀ i j : Fin n, (bladeFamily (ofVector j) (ofVector i) : α)
      = (1 : Matrix (Fin n) (Fin n) α) i j := by
    intro i j
    rw [bladeFamily, Matrix.one_apply]
    simp only [ofVector_injective.eq_iff, Fin.val_inj]
  constructor
  · intro h i hi
    have hvector : OfGrade n 1 (bladeFamily (ofVector i) : Nat → α) := by
      rw [← grade_ofVector i]
      exact ofGrade_bladeFamily (ofVector_lt_iff.mpr hi)
    have hfamily : OfGrade n 1 (f.family i) := ht ▸ hf.ofGrade i
    funext r
    by_cases hr : r < 2 ^ n ∧ grade r = 1
    · obtain ⟨j, rfl⟩ := eq_ofVector_of_grade_eq_one hr.2
      have hj := ofVector_lt_iff.mp hr.1
      rw [← toMatrix_apply hS ht hd ⟨j, hj⟩ ⟨i, hi⟩, h, ← hentry]
    · rw [hfamily.eq_zero hr, hvector.eq_zero hr]
  · intro h
    ext i j
    rw [toMatrix_apply hS ht hd, h j j.isLt, hentry]

/-- Maps with inverse matrices undo each other on all blades. -/
theorem extension_extension_eq_self (hS : S.IsRing) (hE : S.IsExact) {g : Outermorphism α}
    (hf : f.WellFormed) (hg : g.WellFormed) (hfd : f.domain = n) (hft : f.target = n)
    (hgd : g.domain = n) (hgt : g.target = n)
    (hproduct : f.toMatrix S n n * g.toMatrix S n n = 1) (x : Nat → α) {r : Nat} (hr : r < 2 ^ n) :
    extension n f.family (extension n g.family x) r = x r := by
  obtain ⟨h, -, hwf, hht, hhd, hfamily⟩ := comp_spec hS hE hf hg (hgt.trans hfd.symm)
  have hmatrix := toMatrix_comp hS hg hft hfd hgt hgd (hht.trans hft) (hhd.trans hgd) hfamily
  have hidentity := (toMatrix_eq_one_iff hS hwf (hhd.trans hgd) (hht.trans hft)).mp
    (hmatrix.trans hproduct)
  rw [hfd] at hfamily
  rw [← extension_extension hf.ofGrade, ← hfamily, extension_eq_ite hidentity, if_pos hr]

/-- **Elimination inverts what can be inverted.** A square matrix has the inverse that elimination
    gives, on both sides, unless its determinant is zero; then it is singular, and a matrix with a
    row of another length is refused. So the inverse of a map fails with a mismatch of dimensions
    iff the map is not square, as singular iff its determinant is zero, and else undoes the map on
    either side. -/
theorem inverse_matrix_map (hS : S.IsField) (hE : S.IsExact) :
    (∀ (n : Nat) (M : Matrix (Fin n) (Fin n) α),
      (M.det ≠ 0 → ∃ N, SquareMatrix.inverseOfRows S (rowsOf M) = .ok (rowsOf N) ∧
        M * N = 1 ∧ N * M = 1) ∧
      (M.det = 0 → ∃ e, SquareMatrix.inverseOfRows S (rowsOf M) = .error e ∧
        e.kind = .singular)) ∧
    (∀ rows : List (List α), (∃ row ∈ rows, row.length ≠ rows.length) →
      ∃ e, SquareMatrix.inverseOfRows S rows = .error e ∧ e.kind = .invalidArgument) ∧
    ∀ f : Outermorphism α, f.Built →
      ((∃ e, f.inverse S = .error e ∧ e.kind = .dimensionMismatch) ↔ f.domain ≠ f.target) ∧
      ((∃ e, f.inverse S = .error e ∧ e.kind = .singular) ↔
        f.domain = f.target ∧ f.determinant S = .ok 0) ∧
      (f.domain = f.target → f.determinant S ≠ .ok 0 →
        ∃ g fg gf, f.inverse S = .ok g ∧ f.comp S g = .ok fg ∧ g.comp S f = .ok gf ∧
          fg.matrix S = rowsOf (1 : Matrix (Fin f.domain) (Fin f.domain) α) ∧
          gf.matrix S = rowsOf (1 : Matrix (Fin f.domain) (Fin f.domain) α)) := by
  refine ⟨fun n M => ?_, fun rows h => ⟨_, SquareMatrix.inverseOfRows_of_ragged h, rfl⟩,
    fun f hf => ?_⟩
  · rcases SquareMatrix.inverseOfRows_rowsOf hS hE M with ⟨N, hN, hNM⟩ | ⟨e, he, hkind, hdet⟩
    · have hne : M.det ≠ 0 := Matrix.det_ne_zero_of_left_inverse hNM
      exact ⟨fun _ => ⟨N, hN, mul_eq_one_comm.mp hNM, hNM⟩, fun h => absurd h hne⟩
    · exact ⟨fun h => absurd hdet h, fun _ => ⟨e, he, hkind⟩⟩
  · have hwf := hf.wellFormed
    by_cases hsquare : f.domain = f.target
    · have hdet := determinant_eq_det hS.toIsRing hE hwf rfl hsquare.symm
      have hzero : f.determinant S = .ok 0 ↔ (f.toMatrix S f.domain f.domain).det = 0 := by
        rw [hdet, Except.ok.injEq]
      rw [hzero]
      rcases inverse_spec hS hE hwf rfl hsquare.symm with
        ⟨g, hg, hwg, hgd, hgt, hproduct⟩ | ⟨e, he, hkind, hdet⟩
      · have hne := Matrix.det_ne_zero_of_left_inverse hproduct
        obtain ⟨fg, hfg, hleft⟩ := comp_matrix_eq_one hS.toIsRing hE hwf hwg rfl hsquare.symm hgd
          hgt (mul_eq_one_comm.mp hproduct)
        obtain ⟨gf, hgf, hright⟩ := comp_matrix_eq_one hS.toIsRing hE hwg hwf hgd hgt rfl
          hsquare.symm hproduct
        refine ⟨?_, ?_, fun _ _ => ⟨g, fg, gf, hg, hfg, hgf, hleft, hright⟩⟩
        · simp [hg, hsquare]
        · simp [hg, hne]
      · exact ⟨by simp [he, hkind, hsquare], by simp [he, hkind, hsquare, hdet],
          fun _ h => absurd (hzero.mpr hdet) h⟩
    · have hmismatch : f.inverse S = .error (.dimensionMismatch f.domain f.target) := by
        rw [inverse, requireSquare, if_pos hsquare]
        rfl
      exact ⟨by simp [hmismatch, hsquare, Error.kind], by simp [hmismatch, hsquare, Error.kind],
        fun h => absurd h hsquare⟩

end Inverse

/-- A matrix that needs a swap of rows, a singular one and one that is not square, with fractions
    that have a size; and the inverse of a map, and of a map to a larger algebra. -/
theorem inverse_matrix_map_skew :
    let S : Scalars Rat := { Scalars.fractions with magnitude := fun x => some x.toFloat }
    (∃ N, SquareMatrix.inverseOfRows S [[0, 1], [2, 3]] = .ok (rowsOf N) ∧
      !![0, 1; 2, 3] * N = 1 ∧ N * !![0, 1; 2, 3] = 1) ∧
    (∃ e, SquareMatrix.inverseOfRows S [[1, 2], [3, 6]] = .error e ∧ e.kind = .singular) ∧
    (∃ e, SquareMatrix.inverseOfRows S [[1, 2], [3]] = .error e ∧ e.kind = .invalidArgument) ∧
    (∃ g fg gf, skew.inverse S = .ok g ∧ skew.comp S g = .ok fg ∧ g.comp S skew = .ok gf ∧
      fg.matrix S = [[1, 0], [0, 1]] ∧ gf.matrix S = [[1, 0], [0, 1]]) ∧
    ∃ e, (⟨3, skew.images⟩ : Outermorphism Rat).inverse S = .error e ∧
      e.kind = .dimensionMismatch := by
  intro S
  have hS : S.IsField := { Scalars.isField_fractions with }
  obtain ⟨hmatrix, hragged, hmap⟩ := inverse_matrix_map hS Scalars.isExact_fractions
  have hregular : (!![0, 1; 2, 3] : Matrix (Fin 2) (Fin 2) Rat).det ≠ 0 := by
    norm_num [Matrix.det_fin_two]
  have hsingular : (!![1, 2; 3, 6] : Matrix (Fin 2) (Fin 2) Rat).det = 0 := by
    norm_num [Matrix.det_fin_two]
  have hdet : skew.determinant S = .ok (-2) := by cbv
  have hrows : rowsOf (!![0, 1; 2, 3] : Matrix (Fin 2) (Fin 2) Rat) = [[0, 1], [2, 3]] := rfl
  have hrows' : rowsOf (!![1, 2; 3, 6] : Matrix (Fin 2) (Fin 2) Rat) = [[1, 2], [3, 6]] := rfl
  have hbuilt : (⟨3, skew.images⟩ : Outermorphism Rat).Built := by
    have h : Outermorphism.ofImages 2 3 [.ofBlades [(2, 2)], .ofBlades [(1, 1), (2, 3)]]
        = .ok (⟨3, skew.images⟩ : Outermorphism Rat) := by cbv
    exact .ofImages h
  obtain ⟨g, fg, gf, hg, hfg, hgf, hleft, hright⟩ :=
    (hmap skew built_skew).2.2 rfl (by simp [hdet])
  have hone : rowsOf (1 : Matrix (Fin skew.domain) (Fin skew.domain) Rat) = [[1, 0], [0, 1]] := by
    decide +kernel
  rw [← hrows, ← hrows']
  refine ⟨(hmatrix 2 _).1 hregular, (hmatrix 2 _).2 hsingular,
    hragged _ ⟨[3], by simp, by decide⟩, ⟨g, fg, gf, hg, hfg, hgf, ?_, ?_⟩, ?_⟩
  · rw [hleft, hone]
  · rw [hright, hone]
  · exact (hmap _ hbuilt).1.mpr (by decide)

end Outermorphism

end GeometricAlgebra

import GeometricAlgebra.BladeTree.Images
import GeometricAlgebra.Proofs.Algebra.Extension
import GeometricAlgebra.Proofs.Algebra.Families

set_option autoImplicit false

/-! # The outer product of sums of terms

`Terms.wedge` goes through all pairs of terms and drops the zeros of the sum. Its coefficients are
the outer product of the coefficients of its factors (`coeff_wedge`), so a product that is built by
taking one factor after another, and that stops as soon as nothing is left, has the coefficients of
the outer product of all factors (`coeff_foldl_wedge`). -/

namespace GeometricAlgebra

open Blade Product

variable {α : Type} [CommRing α] {S : Scalars α}

namespace Terms

theorem coeff_eq_zero_of_isEmpty {t : Terms α} (h : t.isEmpty = true) : coeff t = 0 := by
  funext r
  rw [Std.ExtTreeMap.isEmpty_iff.mp h, coeff_empty, Pi.zero_apply]

theorem coeff_one (hS : S.IsRing) : coeff ((∅ : Terms α).insert 0 S.one) = bladeFamily 0 := by
  rw [coeff_singleton, hS.one, one_smul]

/-- What the pairs with one term of the first factor add to a coefficient. -/
theorem sum_pairs_of_term (b : Terms α) (s : Nat × α) (r : Nat) :
    (b.toList.map fun t => if s.1 &&& t.1 = 0 then
        (if s.1 ^^^ t.1 = r then (reorderSign s.1 t.1 : α) * (s.2 * t.2) else 0) else 0).sum
      = if within s.1 r = true then
          (reorderSign s.1 (r ^^^ s.1) : α) * s.2 * coeff b (r ^^^ s.1) else 0 := by
  have hxor : ∀ c, s.1 ^^^ c = r ↔ c = r ^^^ s.1 := by
    intro c
    constructor
    · rintro rfl
      rw [Nat.xor_comm s.1, Nat.xor_xor_cancel_right]
    · rintro rfl
      rw [Nat.xor_comm r, Nat.xor_xor_cancel_left]
  have hterm : ∀ t : Nat × α, (if s.1 &&& t.1 = 0 then
        (if s.1 ^^^ t.1 = r then (reorderSign s.1 t.1 : α) * (s.2 * t.2) else 0) else 0)
      = if t.1 = r ^^^ s.1 then
          (if within s.1 r = true then (reorderSign s.1 (r ^^^ s.1) : α) * s.2 * t.2 else 0)
        else 0 := by
    intro t
    by_cases h : t.1 = r ^^^ s.1
    · rw [if_pos ((hxor t.1).mpr h), if_pos h, h, mul_assoc]
      simp only [within_iff_and_xor]
    · rw [if_neg fun h' => h ((hxor t.1).mp h'), if_neg h, ite_self]
  simp only [hterm]
  exact sum_toList_ite_eq b (r ^^^ s.1) (g := fun v => if within s.1 r = true then
    (reorderSign s.1 (r ^^^ s.1) : α) * s.2 * v else 0) (by simp)

/-- **The coefficients of an outer product are the outer product of the coefficients**, where they
    do not count as zero. -/
theorem coeff_wedge_cut (hS : S.IsRing) (h0 : S.isZero 0 = true) (a b : Terms α) (r : Nat) :
    coeff (wedge S a b) r = S.cut (outerProduct (coeff a) (coeff b) r) := by
  have hsign : ∀ i j, reorderSign i j = 0 ∨ reorderSign i j = 1 ∨ reorderSign i j = -1 := by
    intro i j
    rw [reorderSign]
    split <;> simp
  have hpair : ∀ (s t : Nat × α) (acc : Terms α), coeff (if s.1 &&& t.1 = 0 then
        addSigned S acc (s.1 ^^^ t.1) (reorderSign s.1 t.1) (S.mul s.2 t.2) else acc) r
      = coeff acc r + if s.1 &&& t.1 = 0 then
          (if s.1 ^^^ t.1 = r then (reorderSign s.1 t.1 : α) * (s.2 * t.2) else 0) else 0 := by
    intro s t acc
    split
    · rw [coeff_addSigned hS _ _ _ (hsign _ _), hS.mul]
    · rw [add_zero]
  have hmem : ∀ i ∈ a, i ∈ a.keys.toFinset ∪ parts r := fun i hi =>
    Finset.mem_union_left _ (List.mem_toFinset.mpr (Std.ExtTreeMap.mem_keys.mpr hi))
  have hparts : (a.keys.toFinset ∪ parts r).filter (fun i => within i r = true) = parts r := by
    ext i
    rw [Finset.mem_filter, Finset.mem_union, mem_parts]
    tauto
  rw [wedge, coeff_dropZeros_cut h0,
    coeff_foldl (fun s _ acc => coeff_foldl (fun t _ => hpair s t) acc), coeff_empty, zero_add]
  simp only [sum_pairs_of_term]
  rw [sum_toList a hmem (f := fun i v => if within i r = true then
    (reorderSign i (r ^^^ i) : α) * v * coeff b (r ^^^ i) else 0) (by simp), ← Finset.sum_filter,
    hparts, outerProduct]

theorem coeff_wedge (hS : S.IsRing) (hE : S.IsExact) (a b : Terms α) :
    coeff (wedge S a b) = outerProduct (coeff a) (coeff b) := by
  funext r
  rw [coeff_wedge_cut hS hE.isZero_zero, hE.cut_eq]

/-- The terms of an outer product are its coefficients that are not zero. -/
theorem getElem?_wedge_iff (hS : S.IsRing) (hE : S.IsExact) {a b : Terms α} {r : Nat} {v : α} :
    (wedge S a b)[r]? = some v ↔ v = outerProduct (coeff a) (coeff b) r ∧ v ≠ 0 := by
  rw [← coeff_wedge hS hE, wedge, getElem?_dropZeros_iff hE.isZero_zero, coeff_dropZeros hE,
    hE.isZero_eq_false_iff]

/-- Factors taken one after another, up to the first product that is empty. -/
theorem coeff_foldl_wedge (hS : S.IsRing) (hE : S.IsExact) (v : Nat → Terms α) (l : List Nat)
    (running : Terms α) :
    coeff (l.foldl (fun running i =>
        if running.isEmpty then running else wedge S running (v i)) running)
      = l.foldl (fun x i => outerProduct x (coeff (v i))) (coeff running) := by
  induction l generalizing running with
  | nil => rfl
  | cons i l ih =>
      rw [List.foldl_cons, List.foldl_cons, ih]
      congr 1
      split
      · next h => rw [coeff_eq_zero_of_isEmpty h, outerProduct_zero_left]
      · exact coeff_wedge hS hE running (v i)

end Terms

end GeometricAlgebra

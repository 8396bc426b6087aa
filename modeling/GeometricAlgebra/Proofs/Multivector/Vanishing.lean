import GeometricAlgebra.Proofs.Multivector.Collection
import GeometricAlgebra.Proofs.Polynomial.Terms

set_option autoImplicit false

/-! # Scalars that count as zero, added up

A collection keeps scalars that count as zero until it is given a form. So it can be filled with
such scalars only and still leave a term: what decides is the sum, not its parts.

`ClosedUnderAdd` asks of the arithmetic that sums of zeros be zeros. It is exactly what makes
collections of zeros vanish (`closedUnderAdd_iff_vanishes`): it holds initially, an addition
preserves it, and two additions already need it. Polynomials are closed, as only the polynomial
without terms counts as zero. Numbers with a tolerance are not, unless the tolerance is zero. -/

namespace GeometricAlgebra

open Blade

/-- A list without repetitions that has one member. -/
theorem eq_singleton_of_mem_iff {β : Type} {l : List (Nat × β)} (hl : (l.map Prod.fst).Nodup)
    {s : Nat × β} (h : ∀ u, u ∈ l ↔ u = s) : l = [s] := by
  refine List.perm_singleton.mp ((List.perm_ext_iff_of_nodup (hl.of_map _) ?_).mpr fun u => ?_)
  · exact List.nodup_singleton s
  · rw [h, List.mem_singleton]

/-- Sums of scalars that count as zero do so too. -/
def Scalars.ClosedUnderAdd {α : Type} (S : Scalars α) : Prop :=
  ∀ x y, S.isZero x = true → S.isZero y = true → S.isZero (S.add x y) = true

namespace Terms

variable {α : Type} {S : Scalars α} {t : Terms α}

/-! ## Collections that leave nothing -/

/-- Every form of the collection is empty. -/
structure Vanishes (S : Scalars α) (t : Terms α) : Prop where
  dropZeros : Terms.dropZeros S t = ∅
  sparse : (Multivector.sparse (Terms.dropZeros S t)).isEmpty = true
  toGrades : (Terms.toGrades (Terms.dropZeros S t)).isEmpty = true
  compact : (Terms.compact S t).isEmpty = true
  ofOneGrade : ∀ k, ∃ mv, Terms.ofOneGrade S t k = .ok mv ∧ mv.isEmpty = true
  scalarPart : S.isZero (Terms.scalarPart S t) = true

/-- Every coefficient counts as zero. -/
def AllZero (S : Scalars α) (t : Terms α) : Prop :=
  ∀ (b : Nat) v, t[b]? = some v → S.isZero v = true

theorem dropZeros_eq_empty_iff : dropZeros S t = ∅ ↔ AllZero S t := by
  rw [Std.ExtTreeMap.eq_empty_iff_forall_not_mem]
  constructor
  · intro h b v hv
    by_contra hne
    exact h b (mem_iff_exists_getElem?.mpr
      ⟨v, getElem?_dropZeros.mpr ⟨hv, Bool.eq_false_iff.mpr hne⟩⟩)
  · intro h b hb
    obtain ⟨v, hv⟩ := mem_iff_exists_getElem?.mp hb
    obtain ⟨hv, hne⟩ := getElem?_dropZeros.mp hv
    rw [h b v hv] at hne
    cases hne

/-- The forms are empty together. -/
theorem vanishes_iff (h0 : S.isZero S.zero = true) : Vanishes S t ↔ AllZero S t := by
  refine ⟨fun h => dropZeros_eq_empty_iff.mp h.dropZeros, fun h => ?_⟩
  have hempty := dropZeros_eq_empty_iff.mpr h
  refine ⟨hempty, ?_, ?_, ?_, fun k => ⟨toRanks ∅ k, ?_, ?_⟩, ?_⟩
  · rw [hempty]
    rfl
  · rw [hempty]
    rfl
  · rw [Terms.compact, hempty]
    rfl
  · simp only [Terms.ofOneGrade, hempty]
    rfl
  · rfl
  · rw [Terms.scalarPart, Std.ExtTreeMap.getD_eq_getD_getElem?]
    cases hscalar : t[0]? with
    | none => exact h0
    | some v => exact h 0 v hscalar

/-! ## Adding zeros -/

/-- The scalars, added one by one to the coefficient of a blade. -/
def accumulate (S : Scalars α) (b : Nat) (values : List α) : Terms α :=
  run S .empty (values.map (.add b))

theorem allZero_empty : AllZero S ∅ := by
  intro b v hv
  rw [Std.ExtTreeMap.getElem?_empty] at hv
  cases hv

/-- Adding a zero to zeros leaves zeros. -/
theorem AllZero.add (hS : S.ClosedUnderAdd) (h : AllZero S t) (b : Nat) {v : α}
    (hv : S.isZero v = true) : AllZero S (add S t b v) := by
  intro c w hw
  rw [Terms.add, getElem?_alter] at hw
  split at hw
  · -- the blade itself, with or without a coefficient so far
    cases hold : t[b]? with
    | none =>
        rw [hold] at hw
        cases hw
        exact hv
    | some old =>
        rw [hold] at hw
        cases hw
        exact hS old v (h b old hold) hv
  · exact h c w hw

theorem AllZero.accumulate (hS : S.ClosedUnderAdd) (b : Nat) {values : List α}
    (hvalues : ∀ v ∈ values, S.isZero v = true) : AllZero S (accumulate S b values) := by
  rw [Terms.accumulate, run, List.foldl_map]
  exact List.foldlRecOn values _ allZero_empty fun u hu v hv => hu.add hS b (hvalues v hv)

/-- **Collections of zeros vanish exactly where sums of zeros are zeros.** -/
theorem closedUnderAdd_iff_vanishes (h0 : S.isZero S.zero = true) :
    S.ClosedUnderAdd ↔ ∀ b values, (∀ v ∈ values, S.isZero v = true) →
      Vanishes S (accumulate S b values) := by
  constructor
  · intro hS b values hvalues
    exact (vanishes_iff h0).mpr (AllZero.accumulate hS b hvalues)
  · intro h x y hx hy
    have hpair := (vanishes_iff h0).mp (h 0 [x, y] (by simp [hx, hy]))
    refine hpair 0 (S.add x y) ?_
    show (add S (add S ∅ 0 x) 0 y)[0]? = _
    simp only [add, getElem?_alter, Std.ExtTreeMap.getElem?_empty, if_true]

/-! ## Polynomials -/

section Polynomials

variable {κ : Type} [Coefficient κ]

theorem closedUnderAdd_polynomial (δ : κ) : (Polynomial.scalars δ).ClosedUnderAdd := by
  intro p q hp hq
  obtain rfl : p = .zero := Polynomial.isZero_iff.mp hp
  obtain rfl : q = .zero := Polynomial.isZero_iff.mp hq
  rfl

end Polynomials

/-! ## Sums in a ring -/

section Ring

variable [CommRing α]

/-- What is added up is the sum, at its blade. -/
theorem coeff_accumulate (hS : S.IsRing) (b c : Nat) (values : List α) :
    coeff (accumulate S b values) c = if b = c then values.sum else 0 := by
  rw [accumulate, run, List.foldl_map]
  have hsum := coeff_foldl (r := c) (l := values) (fun v _ t => coeff_add hS t b c v) ∅
  refine hsum.trans ?_
  rw [coeff_empty, zero_add]
  split
  · rw [List.map_id']
  · rw [List.map_const', List.sum_replicate, smul_zero]

theorem getElem?_dropZeros_accumulate (hS : S.IsRing) (h0 : S.isZero 0 = true) (b : Nat)
    (values : List α) {c : Nat} {v : α} :
    (dropZeros S (accumulate S b values))[c]? = some v ↔
      (c, v) = (b, values.sum) ∧ S.isZero values.sum = false := by
  rw [getElem?_dropZeros_iff h0, coeff_accumulate hS, Prod.mk.injEq]
  by_cases hbc : b = c
  · subst hbc
    rw [if_pos rfl]
    constructor
    · rintro ⟨rfl, hne⟩
      exact ⟨⟨rfl, rfl⟩, hne⟩
    · rintro ⟨⟨-, rfl⟩, hne⟩
      exact ⟨rfl, hne⟩
  · rw [if_neg hbc]
    constructor
    · rintro ⟨rfl, hne⟩
      rw [h0] at hne
      cases hne
    · rintro ⟨⟨rfl, -⟩, -⟩
      exact absurd rfl hbc

/-- If the sum counts as zero, no form has a term. -/
theorem vanishes_accumulate (hS : S.IsRing) (h0 : S.isZero 0 = true) (b : Nat) {values : List α}
    (hsum : S.isZero values.sum = true) : Vanishes S (accumulate S b values) := by
  have hzero : S.isZero S.zero = true := by rwa [hS.zero]
  refine (vanishes_iff hzero).mpr (dropZeros_eq_empty_iff.mp ?_)
  rw [Std.ExtTreeMap.eq_empty_iff_forall_not_mem]
  intro c hc
  obtain ⟨v, hv⟩ := mem_iff_exists_getElem?.mp hc
  rw [((getElem?_dropZeros_accumulate hS h0 b values).mp hv).2] at hsum
  cases hsum

/-- If it does not, the sum is the term that is left. -/
theorem toList_dropZeros_accumulate (hS : S.IsRing) (h0 : S.isZero 0 = true) (b : Nat)
    {values : List α} (hsum : S.isZero values.sum = false) :
    (dropZeros S (accumulate S b values)).toList = [(b, values.sum)] := by
  refine eq_singleton_of_mem_iff (nodup_map_fst_toList _) fun s => ?_
  rw [Std.ExtTreeMap.mem_toList_iff_getElem?_eq_some, getElem?_dropZeros_accumulate hS h0,
    and_iff_left hsum]

theorem terms_compact_accumulate (hS : S.IsRing) (h0 : S.isZero 0 = true) {b : Nat}
    (hb : b < 2 ^ maxDimension) {values : List α} (hsum : S.isZero values.sum = false) :
    (compact S (accumulate S b values)).terms = [(b, values.sum)] := by
  have hwithin : Within maxDimension (dropZeros S (accumulate S b values)) := by
    intro c hc
    obtain ⟨v, hv⟩ := mem_iff_exists_getElem?.mp hc
    obtain ⟨heq, -⟩ := (getElem?_dropZeros_accumulate hS h0 b values).mp hv
    rwa [(Prod.mk.inj heq).1]
  obtain ⟨hrange, hterms⟩ := pack_spec le_rfl hwithin
  refine eq_singleton_of_mem_iff (Multivector.nodup_terms le_rfl hrange) fun s => ?_
  rw [hterms, getElem?_dropZeros_accumulate hS h0, and_iff_left hsum]

end Ring

/-! ## Tolerances -/

section Tolerance

open Coefficient

variable {ε : Rat}

theorem closedUnderAdd_approximate_iff (hε : 0 ≤ ε) :
    (approximate ε).ClosedUnderAdd ↔ ε = 0 := by
  constructor
  · intro h
    have hzero : (approximate ε).isZero ε = true := isZero_approximate.mpr (abs_of_nonneg hε).le
    have htwice : |ε + ε| ≤ ε := isZero_approximate.mp (h ε ε hzero hzero)
    have := (le_abs_self (ε + ε)).trans htwice
    linarith
  · rintro rfl x y hx hy
    have hx0 : x = 0 := abs_nonpos_iff.mp (isZero_approximate.mp hx)
    have hy0 : y = 0 := abs_nonpos_iff.mp (isZero_approximate.mp hy)
    rw [hx0, hy0]
    show (approximate 0).isZero ((0 : Rat) + 0) = true
    rw [add_zero]
    exact (isTolerant_approximate hε).isZero_zero

/-- Scalars within the tolerance add up to as many tolerances at most. -/
theorem abs_sum_le_of_isZero {values : List Rat}
    (hvalues : ∀ v ∈ values, (approximate ε).isZero v = true) :
    |values.sum| ≤ values.length * ε := by
  induction values with
  | nil => simp
  | cons v values ih =>
      have hv := isZero_approximate.mp (hvalues v List.mem_cons_self)
      have hrest := ih fun w hw => hvalues w (List.mem_cons_of_mem v hw)
      calc |(v :: values).sum| = |v + values.sum| := by rw [List.sum_cons]
        _ ≤ |v| + |values.sum| := abs_add_le v values.sum
        _ ≤ ε + values.length * ε := add_le_add hv hrest
        _ = (v :: values).length * ε := by
            rw [List.length_cons]
            push_cast
            ring

/-- And they do come to that, so there is no bound for them. -/
theorem exists_lt_sum_of_isZero (hε : 0 < ε) (bound : Rat) :
    ∃ values : List Rat, (∀ v ∈ values, (approximate ε).isZero v = true) ∧ bound < values.sum := by
  obtain ⟨n, hn⟩ := exists_nat_gt (bound / ε)
  refine ⟨List.replicate n ε, fun v hv => ?_, ?_⟩
  · rw [List.eq_of_mem_replicate hv]
    exact isZero_approximate.mpr (abs_of_pos hε).le
  · rw [List.sum_replicate, nsmul_eq_mul]
    exact (div_lt_iff₀ hε).mp hn

/-- **Zeros that are added up vanish as far as their sum does.** With a tolerance, sums of zeros are
    zeros only if the tolerance is zero; else the sum decides, which is within as many tolerances
    as there are zeros and can be as large as one likes. Polynomials that count as zero vanish,
    however many are added. -/
theorem accumulate_zeros {S : Scalars Rat} (hS : ofTolerance ε = .ok S) :
    (S.ClosedUnderAdd ↔ ε = 0) ∧
      (∀ b values, (∀ v ∈ values, S.isZero v = true) →
        |values.sum| ≤ values.length * ε ∧
        (|values.sum| ≤ ε → Vanishes S (accumulate S b values)) ∧
        (ε < |values.sum| → ¬ Vanishes S (accumulate S b values) ∧
          (dropZeros S (accumulate S b values)).toList = [(b, values.sum)] ∧
          (b < 2 ^ maxDimension →
            (compact S (accumulate S b values)).terms = [(b, values.sum)]))) ∧
      (0 < ε → ∀ bound, ∃ values : List Rat,
        (∀ v ∈ values, S.isZero v = true) ∧ bound < values.sum) ∧
      ∀ {κ : Type} [Coefficient κ] (δ : κ), (Polynomial.scalars δ).ClosedUnderAdd ∧
        ∀ b values, (∀ v ∈ values, (Polynomial.scalars δ).isZero v = true) →
          Vanishes (Polynomial.scalars δ) (accumulate (Polynomial.scalars δ) b values) := by
  obtain ⟨hε, rfl⟩ := ofTolerance_eq_ok_iff.mp hS
  have hT := isTolerant_approximate hε
  refine ⟨closedUnderAdd_approximate_iff hε, fun b values hvalues => ?_, exists_lt_sum_of_isZero,
    fun δ => ⟨closedUnderAdd_polynomial δ, ?_⟩⟩
  · refine ⟨abs_sum_le_of_isZero hvalues, fun hsum => ?_, fun hsum => ?_⟩
    · exact vanishes_accumulate hT.toIsRing hT.isZero_zero b (isZero_approximate.mpr hsum)
    · have hne : (approximate ε).isZero values.sum = false :=
        Bool.eq_false_iff.mpr (mt isZero_approximate.mp (not_le.mpr hsum))
      have hlist := toList_dropZeros_accumulate hT.toIsRing hT.isZero_zero b hne
      refine ⟨fun hvanishes => ?_, hlist,
        fun hb => terms_compact_accumulate hT.toIsRing hT.isZero_zero hb hne⟩
      rw [hvanishes.dropZeros] at hlist
      cases hlist
  · exact (closedUnderAdd_iff_vanishes rfl).mp (closedUnderAdd_polynomial δ)

end Tolerance

/-- Two scalars within the tolerance whose sum is not. -/
theorem accumulate_zeros_pair :
    let S : Scalars Rat := Coefficient.approximate 1
    let values : List Rat := [3 / 4, 3 / 4]
    (Coefficient.ofTolerance 1 = .ok S ∧ (∀ v ∈ values, S.isZero v = true) ∧ 1 < |values.sum|) ∧
      ¬ S.ClosedUnderAdd ∧ (compact S (accumulate S 1 values)).terms = [(1, 3 / 2)] := by
  intro S values
  have hS : Coefficient.ofTolerance 1 = .ok S :=
    Coefficient.ofTolerance_eq_ok_iff.mpr ⟨by decide, rfl⟩
  have hvalues : ∀ v ∈ values, S.isZero v = true := by decide +kernel
  have hsum : values.sum = 3 / 2 := by decide +kernel
  have hlt : 1 < |values.sum| := by decide +kernel
  obtain ⟨hclosed, hvanishes, -⟩ := accumulate_zeros hS
  obtain ⟨-, -, hlarge⟩ := hvanishes 1 values hvalues
  refine ⟨⟨hS, hvalues, hlt⟩, mt hclosed.mp (by decide), ?_⟩
  rw [← hsum]
  exact (hlarge hlt).2.2 (by decide)

end Terms

end GeometricAlgebra

import GeometricAlgebra.Polynomial
import GeometricAlgebra.Proofs.Coefficient

set_option autoImplicit false

/-! # Polynomials denote elements of a polynomial ring

A monomial whose atoms ascend is known by the power of each atom, so the terms of a polynomial are
coefficients of an element of the ring `ℤ[atoms]`. A polynomial denotes an element if it holds
exactly the coefficients that are not zero, `Denotes`; then either determines the other.

All arithmetic goes through `addTerm`, which inserts a term, merges it or drops what has cancelled.
Where numbers count exactly it adds a monomial to what is denoted (`Denotes.addTerm`), and every
operation is a fold of such steps. -/

namespace GeometricAlgebra

/-- Steps that each add something to what a value stands for add the sum of it. -/
theorem foldl_adds {ι γ M : Type} [AddMonoid M] {P : γ → M → Prop} {l : List ι} {step : γ → ι → γ}
    {f : ι → M} (hstep : ∀ x ∈ l, ∀ c m, P c m → P (step c x) (m + f x)) {c : γ} {m : M}
    (h : P c m) : P (l.foldl step c) (m + (l.map f).sum) := by
  induction l generalizing c m with
  | nil => simpa using h
  | cons x l ih =>
      rw [List.foldl_cons, List.map_cons, List.sum_cons, ← add_assoc]
      exact ih (fun y hy => hstep y (List.mem_cons_of_mem x hy))
        (hstep x List.mem_cons_self c m h)

namespace Polynomial

open Coefficient MvPolynomial

/-! ## Monomials -/

/-- The atoms of a monomial ascend. -/
def Ascending (m : Monomial) : Prop := m.Pairwise (· ≤ ·)

/-- The power of each atom. -/
noncomputable def powers (m : Monomial) : String →₀ ℕ := Multiset.toFinsupp (m : Multiset String)

theorem powers_eq_iff {m n : Monomial} (hm : Ascending m) (hn : Ascending n) :
    powers m = powers n ↔ m = n := by
  refine ⟨fun h => ?_, fun h => h ▸ rfl⟩
  have hperm : m.Perm n := Multiset.coe_eq_coe.mp (Multiset.toFinsupp.injective h)
  exact hperm.eq_of_pairwise (fun _ _ _ _ => le_antisymm) hm hn

theorem exists_powers_eq (s : String →₀ ℕ) : ∃ m, Ascending m ∧ powers m = s := by
  refine ⟨(Finsupp.toMultiset s).sort (· ≤ ·), Multiset.pairwise_sort _ _, ?_⟩
  rw [powers, Multiset.sort_eq, Finsupp.toMultiset_toFinsupp]

theorem mem_support_powers {m : Monomial} {a : String} : a ∈ (powers m).support ↔ a ∈ m := by
  rw [powers, Multiset.toFinsupp_support, Multiset.mem_toFinset, Multiset.mem_coe]

theorem ascending_mulMonomial (m n : Monomial) : Ascending (mulMonomial m n) := by
  refine (List.pairwise_mergeSort (fun _ _ _ hab hbc => ?_) (fun a b => ?_) (m ++ n)).imp
    fun h => of_decide_eq_true h
  · exact decide_eq_true ((of_decide_eq_true hab).trans (of_decide_eq_true hbc))
  · rw [Bool.or_eq_true, decide_eq_true_eq, decide_eq_true_eq]
    exact le_total a b

theorem powers_mulMonomial (m n : Monomial) : powers (mulMonomial m n) = powers m + powers n := by
  have hperm : (mulMonomial m n : Multiset String) = (m : Multiset String) + n := by
    rw [Multiset.coe_add]
    exact Multiset.coe_eq_coe.mpr (List.mergeSort_perm _ _)
  rw [powers, hperm, Multiset.toFinsupp_add, powers, powers]

theorem powers_nil : powers [] = 0 := Multiset.toFinsupp_zero

theorem powers_singleton (a : String) : powers [a] = Finsupp.single a 1 :=
  Multiset.toFinsupp_singleton a

theorem powers_cons (a : String) (m : Monomial) :
    powers (a :: m) = Finsupp.single a 1 + powers m := by
  rw [powers, ← Multiset.cons_coe, ← Multiset.singleton_add, Multiset.toFinsupp_add,
    Multiset.toFinsupp_singleton, powers]

/-- A monomial takes the product of the values of its atoms. -/
theorem eval_monomial_powers (v : String → Int) (m : Monomial) (z : Int) :
    MvPolynomial.eval v (monomial (powers m) z) = z * (m.map v).prod := by
  induction m generalizing z with
  | nil => simp [powers_nil]
  | cons a m ih =>
      have hatom : MvPolynomial.eval v (monomial (Finsupp.single a 1) 1) = v a := eval_X a
      rw [powers_cons, ← one_mul z, ← monomial_mul, map_mul, ih, hatom, List.map_cons,
        List.prod_cons]
      ring

/-! ## What a polynomial denotes -/

theorem mem_terms_of_mem_toList {κ : Type} {p : Polynomial κ} {t : Monomial × κ}
    (ht : t ∈ p.terms.toList) : t.1 ∈ p.terms := by
  rw [← Std.ExtTreeMap.mem_keys, ← Std.ExtTreeMap.map_fst_toList_eq_keys]
  exact List.mem_map_of_mem ht

theorem ext_terms {κ : Type} {p q : Polynomial κ} (h : p.terms = q.terms) : p = q := by
  cases p
  cases q
  exact congrArg Polynomial.mk h

theorem isZero_iff {κ : Type} {p : Polynomial κ} : p.isZero = true ↔ p = zero := by
  rw [isZero, Std.ExtTreeMap.isEmpty_iff]
  exact ⟨ext_terms, fun h => h ▸ rfl⟩

variable {κ : Type} [Coefficient κ]

open Classical in
/-- The polynomial holds the coefficients that are not zero, each under its ascending monomial. -/
def Denotes (p : Polynomial κ) (P : MvPolynomial String ℤ) : Prop :=
  ∀ m, p.terms[m]? = if Ascending m ∧ P.coeff (powers m) ≠ 0 then some (ofInt (P.coeff (powers m)))
    else none

section Denotes

variable {ε : κ} {p q : Polynomial κ} {P Q : MvPolynomial String ℤ}

theorem Denotes.getElem?_iff (h : p.Denotes P) {m : Monomial} {c : κ} :
    p.terms[m]? = some c ↔
      Ascending m ∧ P.coeff (powers m) ≠ 0 ∧ c = ofInt (P.coeff (powers m)) := by
  rw [h m]
  split
  · next hm => simp [hm, eq_comm]
  · next hm => simpa using fun ha hne => absurd ⟨ha, hne⟩ hm

theorem Denotes.mem_iff (h : p.Denotes P) {m : Monomial} :
    m ∈ p.terms ↔ Ascending m ∧ P.coeff (powers m) ≠ 0 := by
  rw [Std.ExtTreeMap.mem_iff_isSome_getElem?, h m]
  split
  · next hm => simpa using hm
  · next hm => simpa using fun ha => not_not.mp fun hne => hm ⟨ha, hne⟩

theorem Denotes.unique_left (h : p.Denotes P) (h' : q.Denotes P) : p = q := by
  refine ext_terms (Std.ExtTreeMap.ext_getElem? fun {m} => ?_)
  rw [h m, h' m]

theorem Denotes.unique_right (hε : CountsExactly ε) (h : p.Denotes P) (h' : p.Denotes Q) :
    P = Q := by
  ext s
  obtain ⟨m, hm, rfl⟩ := exists_powers_eq s
  have heq := (h m).symm.trans (h' m)
  by_cases hP : P.coeff (powers m) = 0 <;> by_cases hQ : Q.coeff (powers m) = 0
  · rw [hP, hQ]
  · simp [hP, hQ, hm] at heq
  · simp [hP, hQ, hm] at heq
  · simpa [hP, hQ, hm, hε.ofInt_inj] using heq

theorem Denotes.isZero_iff (h : p.Denotes P) : p.isZero = true ↔ P = 0 := by
  rw [isZero, Std.ExtTreeMap.isEmpty_iff, Std.ExtTreeMap.eq_empty_iff_forall_not_mem]
  constructor
  · intro hempty
    ext s
    obtain ⟨m, hm, rfl⟩ := exists_powers_eq s
    by_contra hne
    exact hempty m (h.mem_iff.mpr ⟨hm, by simpa using hne⟩)
  · rintro rfl m hmem
    exact (h.mem_iff.mp hmem).2 (coeff_zero _)

/-- The atoms of a polynomial are the variables of what it denotes. -/
theorem Denotes.mem_vars_iff (h : p.Denotes P) {a : String} :
    a ∈ P.vars ↔ ∃ m ∈ p.terms, a ∈ m := by
  rw [mem_vars_iff_mem_support]
  constructor
  · rintro ⟨s, hs, ha⟩
    obtain ⟨m, hm, rfl⟩ := exists_powers_eq s
    exact ⟨m, h.mem_iff.mpr ⟨hm, mem_support_iff.mp hs⟩, mem_support_powers.mp ha⟩
  · rintro ⟨m, hm, ha⟩
    exact ⟨powers m, mem_support_iff.mpr (h.mem_iff.mp hm).2, mem_support_powers.mpr ha⟩

/-! ## Adding a term -/

theorem getElem?_addTerm (t : Std.ExtTreeMap Monomial κ) (m : Monomial) (c : κ) (n : Monomial) :
    (addTerm ε t m c)[n]? = if m = n then
      match t[m]? with
      | some old => if le (magnitude (old + c)) ε then none else some (old + c)
      | none => if lt ε (magnitude c) then some c else none
    else t[n]? := by
  rw [addTerm, Std.ExtTreeMap.getElem?_alter]
  by_cases hmn : m = n
  · refine (if_pos (Std.compare_eq_iff_eq.mpr hmn)).trans (Eq.trans ?_ (if_pos hmn).symm)
    cases t[m]? <;> rfl
  · rw [if_neg (mt Std.compare_eq_iff_eq.mp hmn), if_neg hmn]

/-- **Adding a term adds a monomial to what is denoted.** What cancels leaves no term. -/
theorem Denotes.addTerm (hε : CountsExactly ε) (h : p.Denotes P) {m : Monomial}
    (hm : Ascending m) (z : Int) :
    Denotes ⟨Polynomial.addTerm ε p.terms m (ofInt z)⟩ (P + monomial (powers m) z) := by
  intro n
  rw [getElem?_addTerm, coeff_add, coeff_monomial]
  by_cases hmn : m = n
  · subst hmn
    rw [if_pos rfl, if_pos rfl, h m]
    by_cases hold : P.coeff (powers m) = 0
    · -- nothing is there yet
      have hz := hε.tolerance_lt z
      by_cases hzero : z = 0
      · simp [hold, hzero] at hz ⊢
        simp [hz]
      · simp [hold, hm, hzero, hz.mpr hzero]
    · have hsum := hε.le_tolerance (P.coeff (powers m) + z)
      simp only [hm, hold, ne_eq, not_false_eq_true, and_self, if_true, true_and, hε.add]
      by_cases hzero : P.coeff (powers m) + z = 0
      · rw [if_pos (hsum.mpr hzero), if_neg (not_not.mpr hzero)]
      · rw [if_neg (mt hsum.mp hzero), if_pos hzero]
  · rw [if_neg hmn, h n]
    by_cases hn : Ascending n
    · rw [if_neg (mt (powers_eq_iff hm hn).mp hmn), add_zero]
    · simp [hn]

/-! ## The terms as a list -/

/-- A term stands for a monomial of what is denoted. -/
noncomputable def part (P : MvPolynomial String ℤ) (t : Monomial × κ) : MvPolynomial String ℤ :=
  monomial (powers t.1) (P.coeff (powers t.1))

theorem Denotes.of_mem_toList (h : p.Denotes P) {t : Monomial × κ} (ht : t ∈ p.terms.toList) :
    Ascending t.1 ∧ P.coeff (powers t.1) ≠ 0 ∧ t.2 = ofInt (P.coeff (powers t.1)) :=
  h.getElem?_iff.mp (Std.ExtTreeMap.mem_toList_iff_getElem?_eq_some.mp ht)

/-- The terms add up to what is denoted. -/
theorem Denotes.sum_part (h : p.Denotes P) : (p.terms.toList.map (part P)).sum = P := by
  have hkeys : p.terms.toList.map (part P)
      = (p.terms.keys.map powers).map fun s => monomial s (P.coeff s) := by
    rw [← Std.ExtTreeMap.map_fst_toList_eq_keys, List.map_map, List.map_map]
    rfl
  have hasc : ∀ m ∈ p.terms.keys, Ascending m := fun m hm =>
    (h.mem_iff.mp (Std.ExtTreeMap.mem_keys.mp hm)).1
  have hnodup : (p.terms.keys.map powers).Nodup :=
    List.Nodup.map_on (fun m hm n hn => (powers_eq_iff (hasc m hm) (hasc n hn)).mp)
      Std.ExtTreeMap.nodup_keys
  have hsupport : (p.terms.keys.map powers).toFinset = P.support := by
    ext s
    rw [List.mem_toFinset, List.mem_map, MvPolynomial.mem_support_iff]
    constructor
    · rintro ⟨m, hm, rfl⟩
      exact (h.mem_iff.mp (Std.ExtTreeMap.mem_keys.mp hm)).2
    · intro hne
      obtain ⟨m, hm, rfl⟩ := exists_powers_eq s
      exact ⟨m, Std.ExtTreeMap.mem_keys.mpr (h.mem_iff.mpr ⟨hm, hne⟩), rfl⟩
  rw [hkeys, ← List.sum_toFinset _ hnodup, hsupport, support_sum_monomial_coeff]

end Denotes

end Polynomial

end GeometricAlgebra

import GeometricAlgebra.Proofs.Algebra.Product
import GeometricAlgebra.Proofs.Polynomial.Terms

set_option autoImplicit false

/-! # Sums of products of atoms

Where every blade has an atom of its own, the two atoms of a pair of blades tell the pair
(`atomsOf_inj`). So no two pairs meet at a monomial, and each pair that a product keeps adds one
term, which stays as it is (`Collects.addPair`). A sum over a list of such pairs holds their terms
and nothing else (`Collects.foldl`), and so it does not depend on their order (`Collects.unique`).
All that this asks of numbers is that one and minus one are what they should be. -/

namespace GeometricAlgebra

/-! ## Numbers that count units -/

namespace Coefficient

/-- One and minus one multiply as they should, and are above the tolerance. -/
structure CountsUnits {κ : Type} [Coefficient κ] (ε : κ) : Prop where
  one_mul_one : (ofInt 1 * ofInt 1 : κ) = ofInt 1
  neg_one : (-ofInt 1 : κ) = ofInt (-1)
  tolerance_lt : ∀ s : Int, s = 1 ∨ s = -1 → lt ε (magnitude (ofInt s)) = true

theorem countsUnits_defaultTolerance : CountsUnits defaultTolerance where
  one_mul_one := by decide +kernel
  neg_one := by decide +kernel
  tolerance_lt := by
    rintro s (rfl | rfl)
    · decide +kernel
    · decide +kernel

end Coefficient

open Coefficient

namespace Polynomial

/-! ## Polynomials of one term -/

/-- A polynomial of one term. -/
def single {κ : Type} (m : Monomial) (c : κ) : Polynomial κ :=
  ⟨(∅ : Std.ExtTreeMap Monomial κ).insert m c⟩

theorem toList_single {κ : Type} (m : Monomial) (c : κ) :
    (single m c).terms.toList = [(m, c)] := rfl

variable {κ : Type} [Coefficient κ] {ε : κ}

theorem add_single (p : Polynomial κ) (m : Monomial) (c : κ) :
    add ε p (single m c) = ⟨addTerm ε p.terms m c⟩ := by
  rw [add, Std.ExtTreeMap.foldl_eq_foldl_toList, toList_single, List.foldl_cons, List.foldl_nil]

theorem sub_single (p : Polynomial κ) (m : Monomial) (c : κ) :
    sub ε p (single m c) = ⟨addTerm ε p.terms m (-c)⟩ := by
  rw [sub, Std.ExtTreeMap.foldl_eq_foldl_toList, toList_single, List.foldl_cons, List.foldl_nil]

/-- A term that is not there yet is added as it is. -/
theorem getElem?_addTerm_of_none {t : Std.ExtTreeMap Monomial κ} {m : Monomial} {c : κ}
    (ht : t[m]? = none) (hc : lt ε (magnitude c) = true) (n : Monomial) :
    (addTerm ε t m c)[n]? = if m = n then some c else t[n]? := by
  rw [getElem?_addTerm, ht]
  simp only [hc, if_true]

theorem addTerm_empty {m : Monomial} {c : κ} (hc : lt ε (magnitude c) = true) :
    addTerm ε ∅ m c = (single m c).terms := by
  refine Std.ExtTreeMap.ext_getElem? fun {n} => ?_
  rw [getElem?_addTerm_of_none Std.ExtTreeMap.getElem?_empty hc, single,
    Std.ExtTreeMap.getElem?_insert]
  simp only [Std.compare_eq_iff_eq]

theorem mul_atom (hε : CountsUnits ε) (x y : String) :
    mul ε (atom x) (atom y) = single (mulMonomial [x] [y]) (ofInt 1 : κ) := by
  have hatom : ∀ x : String, atom x = single [x] (ofInt 1 : κ) := fun _ => rfl
  rw [hatom, hatom, mul, Std.ExtTreeMap.foldl_eq_foldl_toList, toList_single, List.foldl_cons,
    List.foldl_nil, Std.ExtTreeMap.foldl_eq_foldl_toList, toList_single, List.foldl_cons,
    List.foldl_nil, hε.one_mul_one, addTerm_empty (hε.tolerance_lt 1 (Or.inl rfl))]

theorem neg_single (m : Monomial) (c : κ) : neg (single m c) = single m (-c) := by
  refine ext_terms (Std.ExtTreeMap.ext_getElem? fun {n} => ?_)
  rw [neg, Std.ExtTreeMap.getElem?_map, single, single, Std.ExtTreeMap.getElem?_insert,
    Std.ExtTreeMap.getElem?_insert]
  split <;> simp

/-! ## Pairs of atoms -/

/-- The atoms of a pair of blades. -/
def atomsOf (a b : Nat) : Monomial := ["a" ++ toString a, "b" ++ toString b]

/-- **The atoms tell the pair.** -/
theorem atomsOf_inj {a b a' b' : Nat} : atomsOf a b = atomsOf a' b' ↔ a = a' ∧ b = b' := by
  simp only [atomsOf, List.cons.injEq, and_true, String.append_right_inj, Nat.toString_eq_repr,
    Nat.repr_inj]

theorem mulMonomial_atoms (a b : Nat) :
    mulMonomial ["a" ++ toString a] ["b" ++ toString b] = atomsOf a b := by
  refine List.mergeSort_of_pairwise (List.pairwise_pair.mpr (decide_eq_true (le_of_lt ?_)))
  rw [String.lt_iff_toList_lt, String.toList_append, String.toList_append]
  exact List.cons_lt_cons_iff.mpr (Or.inl (by decide))

end Polynomial

/-! ## Pairs of blades -/

namespace BladeTree.SignedPair

variable {α : Type}

/-- The blade that the product of a pair is a multiple of. -/
def blade (q : SignedPair α) : Nat := q.first.1 ^^^ q.second.1

/-- The atoms of the blades of a pair. -/
def atoms (q : SignedPair α) : Monomial := Polynomial.atomsOf q.first.1 q.second.1

end BladeTree.SignedPair

namespace Polynomial

open BladeTree

variable {κ : Type} [Coefficient κ] {ε : κ}

/-- A pair of terms of generic multivectors. -/
structure IsGeneric (q : SignedPair (Polynomial κ)) : Prop where
  first : q.first.2 = atom ("a" ++ toString q.first.1)
  second : q.second.2 = atom ("b" ++ toString q.second.1)
  sign : q.sign = 1 ∨ q.sign = -1

theorem IsGeneric.ext {p q : SignedPair (Polynomial κ)} (hp : IsGeneric p) (hq : IsGeneric q)
    (hfirst : p.first.1 = q.first.1) (hsecond : p.second.1 = q.second.1)
    (hsign : p.sign = q.sign) : p = q := by
  have hatom : p.first.2 = q.first.2 := by rw [hp.first, hq.first, hfirst]
  have hatom' : p.second.2 = q.second.2 := by rw [hp.second, hq.second, hsecond]
  cases p
  cases q
  rw [SignedPair.mk.injEq]
  exact ⟨Prod.ext hfirst hatom, Prod.ext hsecond hatom', hsign⟩

/-- The terms that are collected for a blade. -/
def termsAt (t : Terms (Polynomial κ)) (r : Nat) : Std.ExtTreeMap Monomial κ :=
  t[r]?.elim ∅ Polynomial.terms

/-- The collection holds a term for every pair, at its blade, and nothing else. -/
structure Collects (l : List (SignedPair (Polynomial κ))) (t : Terms (Polynomial κ)) : Prop where
  mem_iff : ∀ r, r ∈ t ↔ ∃ q ∈ l, q.blade = r
  getElem?_iff : ∀ r m c, (termsAt t r)[m]? = some c ↔
    ∃ q ∈ l, q.blade = r ∧ m = q.atoms ∧ c = ofInt q.sign

section Collects

variable {A : Algebra (Polynomial κ)} {l l' : List (SignedPair (Polynomial κ))}
  {t t' : Terms (Polynomial κ)} {q : SignedPair (Polynomial κ)}

/-- A generic pair adds the monomial of its atoms with its sign. -/
theorem addPair_eq_alter (hε : CountsUnits ε) (hA : A.scalars = scalars ε) (hq : IsGeneric q) :
    A.addPair t q = t.alter q.blade fun p? =>
      some ⟨addTerm ε (p?.elim ∅ Polynomial.terms) q.atoms (ofInt q.sign)⟩ := by
  have hmul : (scalars ε).mul q.first.2 q.second.2 = single q.atoms (ofInt 1) := by
    rw [hq.first, hq.second]
    exact (mul_atom hε _ _).trans (by rw [mulMonomial_atoms]; rfl)
  have hunit := hε.tolerance_lt q.sign hq.sign
  rw [Algebra.addPair, Algebra.addProduct, hA, hmul, Terms.addSigned]
  have hempty : (⟨addTerm ε ∅ q.atoms (ofInt q.sign)⟩ : Polynomial κ)
      = single q.atoms (ofInt q.sign) := by
    rw [addTerm_empty hunit]
  rcases hq.sign with hsign | hsign <;> rw [hsign] at hempty ⊢
  · rw [if_neg one_ne_zero, if_pos rfl, Terms.add]
    congr 1
    funext p?
    cases p? with
    | none => exact congrArg some hempty.symm
    | some p => exact congrArg some (add_single p _ _)
  · rw [if_neg (by decide), if_neg (by decide), if_pos rfl, Terms.subtract]
    congr 1
    funext p?
    cases p? with
    | none => exact congrArg some ((neg_single _ _).trans (by rw [hε.neg_one, ← hempty]; rfl))
    | some p => exact congrArg some ((sub_single p _ _).trans (by rw [hε.neg_one]; rfl))

theorem termsAt_addPair (hε : CountsUnits ε) (hA : A.scalars = scalars ε) (hq : IsGeneric q)
    (t : Terms (Polynomial κ)) (r : Nat) :
    termsAt (A.addPair t q) r = if q.blade = r then
      addTerm ε (termsAt t r) q.atoms (ofInt q.sign) else termsAt t r := by
  rw [addPair_eq_alter hε hA hq, termsAt, Terms.getElem?_alter]
  split
  · next h => rw [h, Option.elim_some, termsAt]
  · rfl

theorem mem_addPair (hε : CountsUnits ε) (hA : A.scalars = scalars ε) (hq : IsGeneric q)
    (t : Terms (Polynomial κ)) (r : Nat) : r ∈ A.addPair t q ↔ q.blade = r ∨ r ∈ t := by
  rw [addPair_eq_alter hε hA hq, Terms.mem_iff_exists_getElem?, Terms.mem_iff_exists_getElem?,
    Terms.getElem?_alter]
  by_cases h : q.blade = r <;> simp [h]

/-- **A pair of other atoms adds its term**, and no other changes. -/
theorem Collects.addPair (hε : CountsUnits ε) (hA : A.scalars = scalars ε) (h : Collects l t)
    (hq : IsGeneric q) (hfresh : ∀ p ∈ l, p.atoms ≠ q.atoms) :
    Collects (l ++ [q]) (A.addPair t q) := by
  have hnone : (termsAt t q.blade)[q.atoms]? = none := by
    rw [Option.eq_none_iff_forall_ne_some]
    intro c hc
    obtain ⟨p, hp, -, hatoms, -⟩ := (h.getElem?_iff _ _ _).mp hc
    exact hfresh p hp hatoms.symm
  have hunit := hε.tolerance_lt q.sign hq.sign
  refine ⟨fun r => ?_, fun r m c => ?_⟩
  · rw [mem_addPair hε hA hq, h.mem_iff]
    simp [or_and_right, exists_or, or_comm]
  · have hsplit : (∃ p ∈ l ++ [q], p.blade = r ∧ m = p.atoms ∧ c = ofInt p.sign) ↔
        (∃ p ∈ l, p.blade = r ∧ m = p.atoms ∧ c = ofInt p.sign) ∨
          (q.blade = r ∧ m = q.atoms ∧ c = ofInt q.sign) := by
      simp [or_and_right, exists_or]
    rw [termsAt_addPair hε hA hq, hsplit, ← h.getElem?_iff]
    by_cases hr : q.blade = r
    · subst hr
      rw [if_pos rfl, getElem?_addTerm_of_none hnone hunit]
      by_cases hm : q.atoms = m
      · subst hm
        simp [hnone, eq_comm]
      · simp [hm, Ne.symm hm]
    · simp [hr]

theorem collects_nil : Collects [] (∅ : Terms (Polynomial κ)) := by
  refine ⟨fun r => ?_, fun r m c => ?_⟩
  · simp
  · simp [termsAt]

/-- So does every pair of a list. -/
theorem Collects.foldl (hε : CountsUnits ε) (hA : A.scalars = scalars ε) (h : Collects l t)
    (hl' : ∀ q ∈ l', IsGeneric q) (hnodup : ((l ++ l').map SignedPair.atoms).Nodup) :
    Collects (l ++ l') (l'.foldl A.addPair t) := by
  induction l' generalizing l t with
  | nil => rwa [List.append_nil]
  | cons q l' ih =>
      rw [List.forall_mem_cons] at hl'
      have hfresh : ∀ p ∈ l, p.atoms ≠ q.atoms := by
        intro p hp heq
        rw [List.map_append, List.map_cons, List.nodup_middle, List.nodup_cons] at hnodup
        exact hnodup.1 (List.mem_append_left _ (List.mem_map.mpr ⟨p, hp, heq⟩))
      rw [List.append_cons] at hnodup ⊢
      exact ih (h.addPair hε hA hl'.1 hfresh) hl'.2 hnodup

theorem Collects.perm (h : Collects l t) (hl : l.Perm l') : Collects l' t := by
  refine ⟨fun r => ?_, fun r m c => ?_⟩
  · rw [h.mem_iff]
    simp only [hl.mem_iff]
  · rw [h.getElem?_iff]
    simp only [hl.mem_iff]

/-- The pairs tell the collection. -/
theorem Collects.unique (h : Collects l t) (h' : Collects l t') : t = t' := by
  have hat : ∀ r, termsAt t r = termsAt t' r := fun r =>
    Std.ExtTreeMap.ext_getElem? fun {m} => Option.ext fun c => by
      rw [h.getElem?_iff, h'.getElem?_iff]
  have hmem : ∀ r, r ∈ t ↔ r ∈ t' := fun r => by rw [h.mem_iff, h'.mem_iff]
  refine Std.ExtTreeMap.ext_getElem? fun {r} => ?_
  have hr := hmem r
  have hterms := hat r
  rw [Std.ExtTreeMap.mem_iff_isSome_getElem?, Std.ExtTreeMap.mem_iff_isSome_getElem?] at hr
  unfold termsAt at hterms
  cases hp : t[r]? with
  | none =>
      rw [hp] at hr
      cases hp' : t'[r]? with
      | none => rfl
      | some p' => simp [hp'] at hr
  | some p =>
      rw [hp] at hr hterms
      cases hp' : t'[r]? with
      | none => simp [hp'] at hr
      | some p' =>
          rw [hp'] at hterms
          rw [ext_terms (p := p) (q := p') hterms]

end Collects

end Polynomial

end GeometricAlgebra

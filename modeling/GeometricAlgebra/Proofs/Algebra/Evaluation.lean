import GeometricAlgebra.Proofs.Algebra.Canonical
import GeometricAlgebra.Proofs.Polynomial.Ring

set_option autoImplicit false

/-! # Products of evaluated multivectors

A product with polynomials as coefficients and one with their values have little in common as runs:
terms cancel in one and not in the other, zeros are dropped at different blades, and the strategies
add up in different orders. What the runs share is a reading of coefficients in a ring that the
arithmetic respects (`Scalars.Respects`). Every update keeps what the collected terms read as a
family of coefficients, where a blade without a term reads zero (`Terms.Reads.addSigned`). So a
product reads as the product of what its operands read (`Algebra.reads_product`), and here the right
side no longer depends on an order.

The value of a polynomial at integers is such a reading. -/

namespace GeometricAlgebra

open Product BladeTree

variable {α β γ : Type}

/-! ## Multivectors coefficient by coefficient -/

namespace Multivector

/-- The multivector of the same form with every coefficient mapped. -/
def mapCoeffs (f : α → β) : Multivector α → Multivector β
  | scalar value => scalar (f value)
  | kvector g terms => kvector g (terms.map fun _ value => f value)
  | graded grades => graded (grades.map fun _ terms => terms.map fun _ value => f value)
  | sparse terms => sparse (terms.map fun _ value => f value)

theorem gradeTerms_map (g : Nat) (terms : Terms α) (f : α → β) :
    gradeTerms g (terms.map fun _ value => f value)
      = (gradeTerms g terms).map fun t => (t.1, f t.2) := by
  rw [gradeTerms, gradeTerms, Std.ExtTreeMap.toList_map, List.map_map, List.map_map]
  rfl

theorem terms_mapCoeffs (f : α → β) (mv : Multivector α) :
    (mv.mapCoeffs f).terms = mv.terms.map fun t => (t.1, f t.2) := by
  cases mv with
  | scalar value => rfl
  | kvector g terms => exact gradeTerms_map g terms f
  | graded grades =>
      simp only [mapCoeffs, Multivector.terms, Std.ExtTreeMap.toList_map, List.flatMap_map,
        List.map_flatMap, gradeTerms_map]
  | sparse terms => exact Std.ExtTreeMap.toList_map

theorem inRange_mapCoeffs {n : Nat} {f : α → β} {mv : Multivector α} :
    (mv.mapCoeffs f).InRange n ↔ mv.InRange n := by
  cases mv with
  | scalar value => exact Iff.rfl
  | kvector g terms => simp only [mapCoeffs, InRange, Std.ExtTreeMap.mem_map]
  | graded grades =>
      simp only [mapCoeffs, InRange, Std.ExtTreeMap.getElem?_map, Option.map_eq_some_iff]
      constructor
      · intro h g terms hg r hr
        exact h g _ ⟨terms, hg, rfl⟩ r (Std.ExtTreeMap.mem_map.mpr hr)
      · rintro h g _ ⟨terms, hg, rfl⟩ r hr
        exact h g terms hg r (Std.ExtTreeMap.mem_map.mp hr)
  | sparse terms => simp only [mapCoeffs, InRange, Std.ExtTreeMap.mem_map]

theorem mapCoeffs_mapCoeffs (f : α → β) (g : β → γ) (mv : Multivector α) :
    (mv.mapCoeffs f).mapCoeffs g = mv.mapCoeffs fun x => g (f x) := by
  cases mv <;> simp only [mapCoeffs, Std.ExtTreeMap.map_map]

theorem map_congr_terms {terms : Terms α} {f g : α → β}
    (h : ∀ (b : Nat) x, terms[b]? = some x → f x = g x) :
    (terms.map fun _ x => f x) = terms.map fun _ x => g x := by
  refine Std.ExtTreeMap.ext_getElem? fun {b} => ?_
  rw [Std.ExtTreeMap.getElem?_map, Std.ExtTreeMap.getElem?_map]
  exact Option.map_congr (h b)

theorem mapCoeffs_congr {f g : α → β} {mv : Multivector α} (h : ∀ t ∈ mv.terms, f t.2 = g t.2) :
    mv.mapCoeffs f = mv.mapCoeffs g := by
  cases mv with
  | scalar value => exact congrArg scalar (h (0, value) (List.mem_singleton.mpr rfl))
  | kvector k terms =>
      refine congrArg (kvector k) (map_congr_terms fun r x hr => ?_)
      exact h _ (mem_gradeTerms.mpr ⟨r, hr, rfl⟩)
  | graded grades =>
      refine congrArg graded (Std.ExtTreeMap.ext_getElem? fun {k} => ?_)
      rw [Std.ExtTreeMap.getElem?_map, Std.ExtTreeMap.getElem?_map]
      refine Option.map_congr fun terms hk => map_congr_terms fun r x hr => ?_
      have hmem := Std.ExtTreeMap.mem_toList_iff_getElem?_eq_some.mpr hk
      exact h _ (List.mem_flatMap.mpr ⟨(k, terms), hmem, mem_gradeTerms.mpr ⟨r, hr, rfl⟩⟩)
  | sparse terms =>
      refine congrArg sparse (map_congr_terms fun b x hb => ?_)
      exact h _ (Std.ExtTreeMap.mem_toList_iff_getElem?_eq_some.mpr hb)

end Multivector

/-! ## Reading coefficients in a ring -/

/-- Arithmetic respects a reading of its scalars in a ring. -/
structure Scalars.Respects [CommRing β] (S : Scalars α) (R : α → β → Prop) : Prop where
  add : ∀ {x y v w}, R x v → R y w → R (S.add x y) (v + w)
  sub : ∀ {x y v w}, R x v → R y w → R (S.sub x y) (v - w)
  neg : ∀ {x v}, R x v → R (S.neg x) (-v)
  mul : ∀ {x y v w}, R x v → R y w → R (S.mul x y) (v * w)
  isZero : ∀ {x v}, R x v → S.isZero x = true → v = 0

namespace Terms

variable [CommRing β] {S : Scalars α} {R : α → β → Prop} {t : Terms α} {F : Nat → β}

/-- The terms read as a family of coefficients, zero for a blade without a term. -/
def Reads (R : α → β → Prop) (t : Terms α) (F : Nat → β) : Prop :=
  ∀ b, (∀ x, t[b]? = some x → R x (F b)) ∧ (t[b]? = none → F b = 0)

theorem reads_empty : Reads R (∅ : Terms α) (0 : Nat → β) :=
  fun b => ⟨fun x h => by simp at h, fun _ => rfl⟩

/-- An update of one blade adds to what this blade reads. -/
theorem Reads.alter (h : Reads R t F) (b : Nat) {f : Option α → Option α} {v : β}
    (hsome : ∀ x w, R x w → ∃ y, f (some x) = some y ∧ R y (w + v))
    (hnone : ∃ y, f none = some y ∧ R y v) :
    Reads R (t.alter b f) (F + fun c => if b = c then v else 0) := by
  intro c
  rw [getElem?_alter, Pi.add_apply]
  by_cases hbc : b = c
  · subst hbc
    rw [if_pos rfl, if_pos rfl]
    obtain ⟨y, hy, hR⟩ : ∃ y, f t[b]? = some y ∧ R y (F b + v) := by
      cases ht : t[b]? with
      | some x => exact hsome x _ ((h b).1 x ht)
      | none =>
          rw [(h b).2 ht, zero_add]
          exact hnone
    rw [hy]
    exact ⟨fun x hx => Option.some.inj hx ▸ hR, fun hx => by cases hx⟩
  · rw [if_neg hbc, if_neg hbc, add_zero]
    exact h c

/-- **A signed update adds the signed value to what its blade reads.** -/
theorem Reads.addSigned (hS : S.Respects R) (h : Reads R t F) (b : Nat) {s : Int}
    (hs : s = 0 ∨ s = 1 ∨ s = -1) {x : α} {v : β} (hx : R x v) :
    Reads R (Terms.addSigned S t b s x) (F + fun c => if b = c then (s : β) * v else 0) := by
  rcases hs with rfl | rfl | rfl
  · have hzero : (fun c => if b = c then ((0 : Int) : β) * v else 0) = (0 : Nat → β) := by
      funext c
      simp
    rw [hzero, add_zero]
    exact h
  · rw [Int.cast_one, one_mul]
    exact h.alter b (fun y w hy => ⟨_, rfl, hS.add hy hx⟩) ⟨_, rfl, hx⟩
  · rw [Int.cast_neg, Int.cast_one, neg_one_mul]
    refine h.alter b (fun y w hy => ⟨_, rfl, ?_⟩) ⟨_, rfl, hS.neg hx⟩
    rw [← sub_eq_add_neg]
    exact hS.sub hy hx

/-- What is returned reads as what was collected: of the coefficients only zeros are dropped. -/
theorem Reads.compact (hS : S.Respects R) (h : Reads R t F) {n : Nat} (hn : n ≤ maxDimension)
    (ht : Within n t) {b : Nat} (hb : b < 2 ^ n) :
    (∀ x, (compact S t).get? b = some x → R x (F b)) ∧ ((compact S t).get? b = none → F b = 0) := by
  have hget : ∀ x, (Terms.compact S t).get? b = some x ↔ t[b]? = some x ∧ S.isZero x = false :=
    fun x => by
      rw [Multivector.get?_eq_some_iff hn (inRange_compact hn ht)
        (hb.trans_le (Nat.pow_le_pow_right (by decide) hn)), mem_terms_compact hn ht]
  refine ⟨fun x hx => (h b).1 x ((hget x).mp hx).1, fun hnone => ?_⟩
  cases hbt : t[b]? with
  | none => exact (h b).2 hbt
  | some x =>
      refine hS.isZero ((h b).1 x hbt) ?_
      by_contra hx
      rw [(hget x).mpr ⟨hbt, Bool.eq_false_iff.mpr hx⟩] at hnone
      cases hnone

end Terms

/-! ## Products -/

theorem product_map (f : α → γ) (s t : List (Nat × α)) :
    (s.map fun u => (u.1, f u.2)) ×ˢ (t.map fun u => (u.1, f u.2))
      = (s ×ˢ t).map fun p => ((p.1.1, f p.1.2), (p.2.1, f p.2.2)) := by
  induction s with
  | nil => rfl
  | cons u s ih =>
      rw [List.map_cons, List.product_cons, List.product_cons, List.map_append, ih, List.map_map,
        List.map_map]
      rfl

/-- The pairs of a product do not depend on the coefficients. -/
theorem signedPairs_map (k : Product) (sig : Signature) (f : α → γ) (s t : List (Nat × α)) :
    signedPairs k sig (s.map fun u => (u.1, f u.2)) (t.map fun u => (u.1, f u.2))
      = (signedPairs k sig s t).map fun p =>
          ⟨(p.first.1, f p.first.2), (p.second.1, f p.second.2), p.sign⟩ := by
  rw [signedPairs, signedPairs, product_map, List.map_map, List.filter_map, List.filter_map,
    List.map_map]
  rfl

namespace Algebra

section Reading

variable [CommRing β] {A : Algebra α} {a b : Multivector α} {R : α → β → Prop}

theorem reads_foldl_addPair (hS : A.scalars.Respects R) {l : List (SignedPair α)} {f : α → β}
    (hl : ∀ p ∈ l, (p.sign = 0 ∨ p.sign = 1 ∨ p.sign = -1) ∧
      R p.first.2 (f p.first.2) ∧ R p.second.2 (f p.second.2)) :
    Terms.Reads R (l.foldl A.addPair ∅) fun r =>
      (l.map fun p => if p.first.1 ^^^ p.second.1 = r
        then (p.sign : β) * (f p.first.2 * f p.second.2) else 0).sum := by
  have hstep : ∀ p ∈ l, ∀ t F, Terms.Reads R t F → Terms.Reads R (A.addPair t p)
      (F + fun r => if p.first.1 ^^^ p.second.1 = r
        then (p.sign : β) * (f p.first.2 * f p.second.2) else 0) := by
    intro p hp t F hF
    obtain ⟨hsign, hfirst, hsecond⟩ := hl p hp
    exact hF.addSigned hS _ hsign (hS.mul hfirst hsecond)
  have hfold := foldl_adds hstep Terms.reads_empty
  rw [zero_add] at hfold
  convert hfold using 1
  funext r
  rw [Pi.list_sum_apply, List.map_map]
  rfl

/-- **A product reads as the product of what its operands read**, with either strategy. -/
theorem reads_product (hS : A.scalars.Respects R) (k : Product) (ha : A.validate a = .ok ())
    (hb : A.validate b = .ok ()) {f : α → β} (hfa : ∀ t ∈ a.terms, R t.2 (f t.2))
    (hfb : ∀ t ∈ b.terms, R t.2 (f t.2)) :
    ∃ c, A.product k a b = .ok c ∧ A.validate c = .ok () ∧ ∀ r < 2 ^ A.dimension,
      (∀ x, c.get? r = some x → R x (productCoeff k A.signature (a.mapCoeffs f).terms
        (b.mapCoeffs f).terms r)) ∧
      (c.get? r = none → productCoeff k A.signature (a.mapCoeffs f).terms
        (b.mapCoeffs f).terms r = 0) := by
  have hpair : ∀ p ∈ signedPairs k A.signature a.terms b.terms,
      (p.sign = 0 ∨ p.sign = 1 ∨ p.sign = -1) ∧
        R p.first.2 (f p.first.2) ∧ R p.second.2 (f p.second.2) := by
    intro p hp
    obtain ⟨hfirst, hsecond, -, -⟩ := mem_signedPairs.mp hp
    exact ⟨sign_of_mem_signedPairs p hp, hfa _ hfirst, hfb _ hsecond⟩
  have hsum : ∀ {l : List (SignedPair α)}, l.Perm (signedPairs k A.signature a.terms b.terms) →
      Terms.Reads R (l.foldl A.addPair ∅)
        (productCoeff k A.signature (a.mapCoeffs f).terms (b.mapCoeffs f).terms) := by
    intro l hperm
    convert reads_foldl_addPair hS fun p hp => hpair p (hperm.mem_iff.mp hp) using 1
    funext r
    rw [Multivector.terms_mapCoeffs, Multivector.terms_mapCoeffs, ← sum_signedPairs,
      signedPairs_map, List.map_map, ← (hperm.map _).sum_eq]
    rfl
  obtain ⟨htree, hpairs⟩ := within_product k ha hb
  refine ⟨_, product_eq_ok_iff.mpr ⟨ha, hb, rfl⟩, ?_⟩
  split
  · refine ⟨(canonical_compact htree).valid, fun r => ?_⟩
    rw [productOfTree_eq_foldl] at htree ⊢
    have hperm := perm_pairsOf k (validate_eq_ok_iff.mp ha) (validate_eq_ok_iff.mp hb)
    exact (hsum hperm).compact hS A.dimension_le htree
  · refine ⟨(canonical_compact hpairs).valid, fun r => ?_⟩
    rw [productOfPairs_eq_foldl] at hpairs ⊢
    exact (hsum (List.Perm.refl _)).compact hS A.dimension_le hpairs

end Reading

end Algebra

/-! ## Polynomials read at integers -/

open Coefficient

variable {κ : Type} [Coefficient κ] {ε : κ}

/-- The polynomial denotes an element of the ring, its atoms have integers as values, and there the
    element takes the given value. -/
def Polynomial.Takes (value : String → Option κ) (v : String → Int) (p : Polynomial κ) (z : Int) :
    Prop :=
  ∃ P, p.Denotes P ∧ (∀ x ∈ P.vars, value x = some (ofInt (v x))) ∧ MvPolynomial.eval v P = z

namespace Polynomial

variable {value : String → Option κ} {v : String → Int}

theorem Takes.eval_eq (hε : CountsExactly ε) {p : Polynomial κ} {z : Int} (h : p.Takes value v z) :
    p.eval value = .ok (ofInt z) := by
  obtain ⟨P, hP, hvars, rfl⟩ := h
  exact hP.eval_eq hε hvars

theorem IsIntegral.exists_takes (hε : CountsExactly ε) {p : Polynomial κ} (hp : p.IsIntegral)
    (hvalue : ∀ m ∈ p.terms, ∀ x ∈ m, value x = some (ofInt (v x))) : ∃ z, p.Takes value v z := by
  obtain ⟨P, hP⟩ := hp.exists_denotes hε
  refine ⟨_, P, hP, fun x hx => ?_, rfl⟩
  obtain ⟨m, hm, hxm⟩ := hP.mem_vars_iff.mp hx
  exact hvalue m hm x hxm

section Arithmetic

variable {p q : Polynomial κ} {y z : Int}

theorem Takes.add (hε : CountsExactly ε) (hp : p.Takes value v y) (hq : q.Takes value v z) :
    (Polynomial.add ε p q).Takes value v (y + z) := by
  obtain ⟨P, hP, hPv, rfl⟩ := hp
  obtain ⟨Q, hQ, hQv, rfl⟩ := hq
  refine ⟨P + Q, hP.add hε hQ, fun x hx => ?_, map_add _ _ _⟩
  exact (Finset.mem_union.mp (MvPolynomial.vars_add_subset P Q hx)).elim (hPv x) (hQv x)

theorem Takes.sub (hε : CountsExactly ε) (hp : p.Takes value v y) (hq : q.Takes value v z) :
    (Polynomial.sub ε p q).Takes value v (y - z) := by
  obtain ⟨P, hP, hPv, rfl⟩ := hp
  obtain ⟨Q, hQ, hQv, rfl⟩ := hq
  refine ⟨P - Q, hP.sub hε hQ, fun x hx => ?_, map_sub _ _ _⟩
  rw [sub_eq_add_neg] at hx
  have hmem := Finset.mem_union.mp (MvPolynomial.vars_add_subset P (-Q) hx)
  rw [MvPolynomial.vars_neg] at hmem
  exact hmem.elim (hPv x) (hQv x)

theorem Takes.neg (hε : CountsExactly ε) (hp : p.Takes value v y) : p.neg.Takes value v (-y) := by
  obtain ⟨P, hP, hPv, rfl⟩ := hp
  refine ⟨-P, hP.neg hε, fun x hx => ?_, map_neg _ _⟩
  rw [MvPolynomial.vars_neg] at hx
  exact hPv x hx

theorem Takes.mul (hε : CountsExactly ε) (hp : p.Takes value v y) (hq : q.Takes value v z) :
    (Polynomial.mul ε p q).Takes value v (y * z) := by
  obtain ⟨P, hP, hPv, rfl⟩ := hp
  obtain ⟨Q, hQ, hQv, rfl⟩ := hq
  refine ⟨P * Q, hP.mul hε hQ, fun x hx => ?_, map_mul _ _ _⟩
  exact (Finset.mem_union.mp (MvPolynomial.vars_mul P Q hx)).elim (hPv x) (hQv x)

theorem Takes.eq_zero (hp : p.Takes value v z) (hzero : p.isZero = true) : z = 0 := by
  obtain ⟨P, hP, -, rfl⟩ := hp
  rw [hP.isZero_iff.mp hzero, map_zero]

end Arithmetic

/-- Arithmetic on polynomials respects their values, as no operation brings in an atom. -/
theorem respects_takes (hε : CountsExactly ε) (value : String → Option κ) (v : String → Int) :
    (scalars ε).Respects (Takes value v) :=
  ⟨Takes.add hε, Takes.sub hε, Takes.neg hε, Takes.mul hε, Takes.eq_zero⟩

end Polynomial

/-! ## Evaluated products -/

namespace Multivector

/-- Evaluating every coefficient succeeds, with these integers. -/
def EvaluatesTo (value : String → Option κ) (a : Multivector (Polynomial κ))
    (a' : Multivector Int) :
    Prop :=
  a.mapCoeffs (Polynomial.eval value) = a'.mapCoeffs fun z => .ok (ofInt z)

/-- The value of the coefficient of a blade; without a term it is zero. -/
def evalAt (value : String → Option κ) (a : Multivector (Polynomial κ)) (b : Nat) :
    Except Error κ :=
  match a.get? b with
  | none => .ok (ofInt 0)
  | some p => p.eval value

section EvaluatesTo

variable {value : String → Option κ} {a : Multivector (Polynomial κ)} {a' : Multivector Int}

theorem evaluatesTo_mapCoeffs {f : Polynomial κ → Int}
    (hf : ∀ t ∈ a.terms, t.2.eval value = .ok (ofInt (f t.2))) :
    a.EvaluatesTo value (a.mapCoeffs f) := by
  rw [EvaluatesTo, mapCoeffs_mapCoeffs]
  exact mapCoeffs_congr hf

theorem EvaluatesTo.inRange_iff (h : a.EvaluatesTo value a') {n : Nat} :
    a'.InRange n ↔ a.InRange n := by
  rw [EvaluatesTo] at h
  rw [← inRange_mapCoeffs, ← h, inRange_mapCoeffs]

/-- There is one result at most. -/
theorem EvaluatesTo.terms_eq (hε : CountsExactly ε) (h : a.EvaluatesTo value a')
    {f : Polynomial κ → Int} (hf : ∀ t ∈ a.terms, t.2.eval value = .ok (ofInt (f t.2))) :
    a'.terms = (a.mapCoeffs f).terms := by
  have hboth := h.symm.trans (evaluatesTo_mapCoeffs hf)
  have hterms := congrArg Multivector.terms hboth
  rw [terms_mapCoeffs, terms_mapCoeffs] at hterms
  refine List.map_injective_iff.mpr (fun s t hst => ?_) hterms
  obtain ⟨hblade, hvalue⟩ := Prod.mk.inj hst
  exact Prod.ext hblade (hε.ofInt_injective (Except.ok.inj hvalue))

end EvaluatesTo

end Multivector

namespace Algebra

/-- **The product commutes with evaluation.** Take polynomials with integer coefficients for the
    coefficients of two multivectors of the algebra, and integers for all atoms in them, where
    numbers count exactly. Then both multivectors can be evaluated, and for whatever integers they
    evaluate to, an algebra of the same signature over exact integers multiplies these to what the
    product of the former evaluates to, blade by blade, with any strategy on either side. -/
theorem product_eval {A : Algebra (Polynomial κ)} {B : Algebra Int} (hε : CountsExactly ε)
    (hA : A.scalars = Polynomial.scalars ε) (hB : B.scalars.IsRing) (hE : B.scalars.IsExact)
    (hsig : A.signature = B.signature) (k : Product) {a b : Multivector (Polynomial κ)}
    (ha : A.validate a = .ok ()) (hb : A.validate b = .ok ())
    (hintegral : ∀ t ∈ a.terms ++ b.terms, t.2.IsIntegral)
    {value : String → Option κ} {v : String → Int}
    (hvalue : ∀ t ∈ a.terms ++ b.terms, ∀ m ∈ t.2.terms, ∀ x ∈ m, value x = some (ofInt (v x))) :
    (∃ a', a.EvaluatesTo value a') ∧ (∃ b', b.EvaluatesTo value b') ∧
      ∀ a' b', a.EvaluatesTo value a' → b.EvaluatesTo value b' →
        ∃ c c', A.product k a b = .ok c ∧ B.product k a' b' = .ok c' ∧
          A.validate c = .ok () ∧ B.validate c' = .ok () ∧
          ∀ r < 2 ^ A.dimension, c.evalAt value r = .ok (ofInt (c'.coeff r)) := by
  have htakes : ∀ p ∈ (a.terms ++ b.terms).map Prod.snd, ∃ z, p.Takes value v z := by
    intro p hp
    obtain ⟨t, ht, rfl⟩ := List.mem_map.mp hp
    exact (hintegral t ht).exists_takes hε (hvalue t ht)
  choose! f hf using htakes
  have hfa : ∀ t ∈ a.terms, t.2.Takes value v (f t.2) := fun t ht =>
    hf t.2 (List.mem_map_of_mem (List.mem_append_left _ ht))
  have hfb : ∀ t ∈ b.terms, t.2.Takes value v (f t.2) := fun t ht =>
    hf t.2 (List.mem_map_of_mem (List.mem_append_right _ ht))
  have hevala := fun t ht => (hfa t ht).eval_eq hε
  have hevalb := fun t ht => (hfb t ht).eval_eq hε
  refine ⟨⟨_, Multivector.evaluatesTo_mapCoeffs hevala⟩,
    ⟨_, Multivector.evaluatesTo_mapCoeffs hevalb⟩,
    fun a' b' ha' hb' => ?_⟩
  have hrespects : A.scalars.Respects (Polynomial.Takes value v) := by
    rw [hA]
    exact Polynomial.respects_takes hε value v
  obtain ⟨c, hc, hvalid, hreads⟩ := reads_product hrespects k ha hb hfa hfb
  have hdim : A.dimension = B.dimension := congrArg Signature.dimension hsig
  have hrange : a'.InRange B.dimension := ha'.inRange_iff.mpr (hdim ▸ validate_eq_ok_iff.mp ha)
  have hrange' : b'.InRange B.dimension := hb'.inRange_iff.mpr (hdim ▸ validate_eq_ok_iff.mp hb)
  have hc' := product_eq_compact hB hE.isZero_zero (k := k) hrange hrange'
  refine ⟨c, _, hc, hc', hvalid, (canonical_of_product hc').valid, fun r hr => ?_⟩
  have hcoeff : (Terms.compact B.scalars (B.productOfPairs k a' b')).coeff r
      = productCoeff k A.signature (a.mapCoeffs f).terms (b.mapCoeffs f).terms r := by
    rw [Terms.coeff_compact hE B.dimension_le
        (fun _ => coeff_productOfPairs_eq_zero hB k hrange hrange')
      (hdim ▸ hr), coeff_productOfPairs hB, ha'.terms_eq hε hevala, hb'.terms_eq hε hevalb, hsig]
  rw [hcoeff, Multivector.evalAt]
  cases hget : c.get? r with
  | none => rw [(hreads r hr).2 hget]
  | some p => exact ((hreads r hr).1 p hget).eval_eq hε

/-- Of `x e₀ + y e₁` times itself, where the vectors square to `1` and `-1`, the polynomial
    `x ^ 2 - y ^ 2` is a term that vanishes where both atoms are `3`. -/
theorem product_eval_cancelling :
    let A : Algebra (Polynomial Rat) := ⟨.mixed, Polynomial.scalars (1 / 10 ^ 12), .tree⟩
    let B : Algebra Int := ⟨.mixed, .integers, .pairwise⟩
    let a : Multivector (Polynomial Rat) :=
      .ofBlades [(1, Polynomial.atom "x"), (2, Polynomial.atom "y")]
    let a' : Multivector Int := .ofBlades [(1, 3), (2, 3)]
    let value : String → Option Rat := fun _ => some (ofInt 3)
    ∃ c c', A.product .geometric a a = .ok c ∧ B.product .geometric a' a' = .ok c' ∧
      ∀ r < 8, c.evalAt value r = .ok (ofInt (c'.coeff r)) := by
  intro A B a a' value
  have hε : CountsExactly (1 / 10 ^ 12 : Rat) := countsExactly_rat (by norm_num) (by norm_num)
  have ha : A.validate a = .ok () := by cbv
  have hterms : a.terms = [(1, Polynomial.atom "x"), (2, Polynomial.atom "y")] := rfl
  have hintegral : ∀ t ∈ a.terms ++ a.terms, t.2.IsIntegral := by
    simp [hterms, (Polynomial.denotes_atom _).isIntegral]
  have hvalue : ∀ x, value x = some (ofInt 3) := fun _ => rfl
  have hatom : ∀ x, (Polynomial.atom x : Polynomial Rat).eval value = .ok (ofInt 3) := by
    intro x
    rw [(Polynomial.denotes_atom x).eval_eq hε (v := fun _ => 3) (fun y _ => hvalue y),
      MvPolynomial.eval_X]
  have heval : a.EvaluatesTo value a' := by
    have hmap : a.mapCoeffs (fun _ => 3) = a' := rfl
    rw [← hmap]
    exact Multivector.evaluatesTo_mapCoeffs (by simp [hterms, hatom])
  obtain ⟨-, -, hall⟩ := product_eval (A := A) (B := B) hε rfl Scalars.isRing_integers
    Scalars.isExact_integers rfl .geometric ha ha hintegral
    (v := fun _ => 3) (fun _ _ _ _ x _ => hvalue x)
  obtain ⟨c, c', hc, hc', -, -, hr⟩ := hall a' a' heval heval
  exact ⟨c, c', hc, hc', hr⟩

end Algebra

end GeometricAlgebra

import GeometricAlgebra.Algebra
import GeometricAlgebra.Proofs.Algebra.Convolution
import GeometricAlgebra.Proofs.BladeTree.Pairs
import GeometricAlgebra.Proofs.Multivector.Sums

set_option autoImplicit false

/-! # Products are sums over pairs of terms

Either way of finding the pairs folds the same update over a list of signed pairs: all pairs with a
sign in the order of the terms (`productOfPairs_eq_foldl`), or what the walk finds
(`productOfTree_eq_foldl`). The two lists hold the same pairs, so in a ring the sums have the same
coefficients, `productCoeff`, and as the result depends on these alone it does not depend on the
strategy. These coefficients are the convolution of those of the operands, twisted by the signs
(`product_spec`). -/

namespace GeometricAlgebra

open Product BladeTree

variable {α : Type}

namespace Algebra

variable (A : Algebra α)

theorem productSign_eq (k : Product) (a b : Nat) :
    A.productSign k a b = sign k A.signature a b := by
  rw [productSign]
  split
  · next h => exact euclideanSign_eq_sign k h a b
  · rfl

/-! ## Products as folds -/

/-- Adds the product of a signed pair. -/
def addPair (sum : Terms α) (p : SignedPair α) : Terms α :=
  A.addProduct sum p.first p.second p.sign

theorem productOfPairs_eq_foldl (k : Product) (a b : Multivector α) :
    A.productOfPairs k a b = (signedPairs k A.signature a.terms b.terms).foldl A.addPair ∅ := by
  have hflat : a.terms ×ˢ b.terms = a.terms.flatMap fun s => b.terms.map (Prod.mk s) := rfl
  rw [signedPairs, List.foldl_filter, List.foldl_map, hflat, List.foldl_flatMap, productOfPairs]
  simp only [List.foldl_map, productSign_eq, bne_iff_ne, ne_eq, ite_not]
  rfl

theorem productOfTree_eq_foldl (k : Product) (a b : Multivector α) :
    A.productOfTree k a b = (pairsOf k A.signature a b).foldl A.addPair ∅ :=
  foldPairs_eq_foldl k A.signature a b _ _

theorem sign_of_mem_signedPairs {k : Product} {sig : Signature} {s t : List (Nat × α)} :
    ∀ p ∈ signedPairs k sig s t, p.sign = 0 ∨ p.sign = 1 ∨ p.sign = -1 := by
  intro p hp
  rw [(mem_signedPairs.mp hp).2.2.1]
  exact sign_cases k sig _ _

/-! ## Which products succeed -/

section Validate

variable {A}

theorem validate_eq_ok_iff {a : Multivector α} :
    A.validate a = .ok () ↔ a.InRange A.dimension := by
  rw [validate, Multivector.validate_eq_ok_iff]
  exact and_iff_right A.signature.dimension_le

theorem product_eq_ok_iff {k : Product} {a b c : Multivector α} :
    A.product k a b = .ok c ↔
      A.validate a = .ok () ∧ A.validate b = .ok () ∧
        c = Terms.compact A.scalars (if A.strategy.usesTree (a.size * b.size) then
          A.productOfTree k a b else A.productOfPairs k a b) := by
  rw [product, bind_eq_ok_iff]
  constructor
  · rintro ⟨⟨⟩, ha, h⟩
    obtain ⟨⟨⟩, hb, h⟩ := bind_eq_ok_iff.mp h
    cases h
    exact ⟨ha, hb, rfl⟩
  · rintro ⟨ha, hb, rfl⟩
    exact ⟨(), ha, bind_eq_ok_iff.mpr ⟨(), hb, rfl⟩⟩

end Validate

/-! ## Coefficients -/

/-- The coefficient of the blade `r` in the product of two lists of terms. -/
def productCoeff [CommRing α] (k : Product) (sig : Signature) (s t : List (Nat × α))
    (r : Nat) : α :=
  (((s ×ˢ t).filter fun p => p.1.1 ^^^ p.2.1 = r).map fun p =>
    (sign k sig p.1.1 p.2.1 : α) * p.1.2 * p.2.2).sum

section Ring

variable [CommRing α] {A}

theorem coeff_foldl_addPair (hS : A.scalars.IsRing) (l : List (SignedPair α))
    (hl : ∀ p ∈ l, p.sign = 0 ∨ p.sign = 1 ∨ p.sign = -1) (t : Terms α) (r : Nat) :
    Terms.coeff (l.foldl A.addPair t) r
      = Terms.coeff t r + (l.map fun p =>
          if p.first.1 ^^^ p.second.1 = r
            then (p.sign : α) * (p.first.2 * p.second.2) else 0).sum := by
  refine Terms.coeff_foldl (fun p hp u => ?_) t
  rw [addPair, addProduct, Terms.coeff_addSigned hS _ _ _ (hl p hp), hS.mul]

theorem sum_map_filter {β : Type} (p : β → Bool) (f : β → α) (l : List β) :
    ((l.filter p).map f).sum = (l.map fun x => if p x = true then f x else 0).sum := by
  induction l with
  | nil => rfl
  | cons x l ih =>
      rw [List.filter_cons, List.map_cons, List.sum_cons, ← ih]
      by_cases hx : p x = true
      · rw [if_pos hx, if_pos hx, List.map_cons, List.sum_cons]
      · rw [if_neg hx, if_neg hx, zero_add]

theorem sum_map_product {β γ : Type} (s : List β) (t : List γ) (f : β × γ → α) :
    ((s ×ˢ t).map f).sum = (s.map fun u => (t.map fun v => f (u, v)).sum).sum := by
  induction s with
  | nil => rfl
  | cons u s ih =>
      rw [List.product_cons, List.map_append, List.sum_append, ih, List.map_cons, List.sum_cons,
        List.map_map]
      rfl

/-- Pairs without a sign add nothing. -/
theorem sum_signedPairs (k : Product) (sig : Signature) (s t : List (Nat × α)) (r : Nat) :
    ((signedPairs k sig s t).map fun p =>
        if p.first.1 ^^^ p.second.1 = r then (p.sign : α) * (p.first.2 * p.second.2) else 0).sum
      = productCoeff k sig s t r := by
  rw [signedPairs, sum_map_filter, productCoeff, sum_map_filter, List.map_map]
  congr 1
  refine List.map_congr_left fun p _ => ?_
  simp only [Function.comp_apply, bne_iff_ne, decide_eq_true_eq]
  by_cases hsign : sign k sig p.1.1 p.2.1 = 0
  · simp [hsign]
  · rw [if_pos hsign, mul_assoc]

/-- Both ways of finding the pairs give the same coefficients. -/
theorem coeff_productOfPairs (hS : A.scalars.IsRing) (k : Product) (a b : Multivector α) (r : Nat) :
    Terms.coeff (A.productOfPairs k a b) r = productCoeff k A.signature a.terms b.terms r := by
  rw [productOfPairs_eq_foldl, coeff_foldl_addPair hS _ sign_of_mem_signedPairs, Terms.coeff_empty,
    zero_add, sum_signedPairs]

theorem coeff_productOfTree (hS : A.scalars.IsRing) (k : Product) {a b : Multivector α}
    (ha : a.InRange A.dimension) (hb : b.InRange A.dimension) (r : Nat) :
    Terms.coeff (A.productOfTree k a b) r = productCoeff k A.signature a.terms b.terms r := by
  have hperm := perm_pairsOf k ha hb
  have hsign : ∀ p ∈ pairsOf k A.signature a b, p.sign = 0 ∨ p.sign = 1 ∨ p.sign = -1 :=
    fun p hp => sign_of_mem_signedPairs p (hperm.mem_iff.mp hp)
  rw [productOfTree_eq_foldl, coeff_foldl_addPair hS _ hsign, Terms.coeff_empty, zero_add,
    (hperm.map _).sum_eq, sum_signedPairs]

/-! ## Coefficients as convolutions -/

/-- The signs of a product as scalars. -/
def signs (A : Algebra α) (k : Product) (i j : Nat) : α := (sign k A.signature i j : α)

theorem productCoeff_eq_convolve (k : Product) {a b : Multivector α} (ha : a.InRange A.dimension)
    (hb : b.InRange A.dimension) (r : Nat) :
    productCoeff k A.signature a.terms b.terms r
      = convolve A.dimension (A.signs k) a.coeff b.coeff r := by
  have hn := A.signature.dimension_le
  have hright : ∀ i v, (b.terms.map fun t =>
      if i ^^^ t.1 = r then A.signs k i t.1 * v * t.2 else 0).sum
        = ∑ j ∈ Finset.range (2 ^ A.dimension),
            if i ^^^ j = r then A.signs k i j * v * b.coeff j else 0 := fun i v =>
    Multivector.sum_terms hn hb (fun j w => if i ^^^ j = r then A.signs k i j * v * w else 0)
      fun j => by simp
  -- the sum over the terms of `b` is done for every term of `a`, then that over the terms of `a`
  rw [productCoeff, sum_map_filter, sum_map_product, convolve]
  simp only [decide_eq_true_eq, ← signs.eq_def, hright]
  refine Multivector.sum_terms hn ha (fun i v => ∑ j ∈ Finset.range (2 ^ A.dimension),
    if i ^^^ j = r then A.signs k i j * v * b.coeff j else 0) fun i => ?_
  simp

/-! ## The product -/

/-- Where scalars form a ring, the strategy does not matter. -/
theorem product_eq_compact (hS : A.scalars.IsRing) (h0 : A.scalars.isZero 0 = true) {k : Product}
    {a b : Multivector α} (ha : a.InRange A.dimension) (hb : b.InRange A.dimension) :
    A.product k a b = .ok (Terms.compact A.scalars (A.productOfPairs k a b)) := by
  refine product_eq_ok_iff.mpr ⟨validate_eq_ok_iff.mpr ha, validate_eq_ok_iff.mpr hb, ?_⟩
  split
  · refine Terms.compact_congr h0 fun r => ?_
    rw [coeff_productOfPairs hS, coeff_productOfTree hS k ha hb]
  · rfl

theorem coeff_productOfPairs_eq_convolve (hS : A.scalars.IsRing) (k : Product) {a b : Multivector α}
    (ha : a.InRange A.dimension) (hb : b.InRange A.dimension) (r : Nat) :
    Terms.coeff (A.productOfPairs k a b) r
      = convolve A.dimension (A.signs k) a.coeff b.coeff r := by
  rw [coeff_productOfPairs hS, productCoeff_eq_convolve k ha hb]

/-- A product has no blade outside the algebra. -/
theorem coeff_productOfPairs_eq_zero (hS : A.scalars.IsRing) (k : Product) {a b : Multivector α}
    (ha : a.InRange A.dimension) (hb : b.InRange A.dimension) {r : Nat} (hr : 2 ^ A.dimension ≤ r) :
    Terms.coeff (A.productOfPairs k a b) r = 0 := by
  rw [coeff_productOfPairs_eq_convolve hS k ha hb, convolve_eq_zero _ _ _ hr]

/-- **The coefficients of a product are the twisted convolution of those of its operands.** -/
theorem product_spec (hS : A.scalars.IsRing) (h0 : A.scalars.isZero 0 = true) (k : Product)
    {a b : Multivector α} {x y : Nat → α} (ha : a.HasCoeffs A.dimension x)
    (hb : b.HasCoeffs A.dimension y) :
    ∃ c, A.product k a b = .ok c ∧
      c.Represents A.scalars A.dimension (convolve A.dimension (A.signs k) x y) := by
  refine ⟨Terms.compact A.scalars (A.productOfPairs k a b),
    product_eq_compact hS h0 ha.inRange hb.inRange, Multivector.represents_compact fun r => ?_⟩
  rw [coeff_productOfPairs_eq_convolve hS k ha.inRange hb.inRange,
    convolve_congr _ ha.coeff_eq hb.coeff_eq]
  split
  · rfl
  · next hr => exact convolve_eq_zero _ _ _ (not_lt.mp hr)

/-! ## The strategies agree -/

/-- **A product is the sum over all pairs of terms.** It succeeds iff both operands belong to the
    algebra; the result then holds the coefficients of the sum that do not count as zero, and every
    strategy gives this one result. -/
theorem product_eq_sum (A : Algebra α) (hS : A.scalars.IsRing)
    (h0 : A.scalars.isZero A.scalars.zero = true) (k : Product) (a b : Multivector α) :
    (∀ s : Strategy, (∃ c, ({ A with strategy := s } : Algebra α).product k a b = .ok c) ↔
      A.validate a = .ok () ∧ A.validate b = .ok ()) ∧
    (A.validate a = .ok () → A.validate b = .ok () →
      ∃ c, (∀ s : Strategy, ({ A with strategy := s } : Algebra α).product k a b = .ok c) ∧
        (c.terms.map Prod.fst).Nodup ∧
        ∀ r v, (r, v) ∈ c.terms ↔
          v = productCoeff k A.signature a.terms b.terms r ∧ A.scalars.isZero v = false) := by
  rw [hS.zero] at h0
  refine ⟨fun s => ⟨?_, ?_⟩, fun ha hb => ?_⟩
  · rintro ⟨c, hc⟩
    obtain ⟨ha, hb, -⟩ := product_eq_ok_iff.mp hc
    exact ⟨ha, hb⟩
  · rintro ⟨ha, hb⟩
    exact ⟨_, product_eq_ok_iff.mpr ⟨ha, hb, rfl⟩⟩
  · rw [validate_eq_ok_iff] at ha hb
    have hn := A.signature.dimension_le
    obtain ⟨hrange, hterms⟩ := Terms.compact_spec h0 hn
      fun r hr => coeff_productOfPairs_eq_zero hS k ha hb hr
    refine ⟨Terms.compact A.scalars (A.productOfPairs k a b), fun s => ?_,
      Multivector.nodup_terms hn hrange, fun r v => ?_⟩
    · exact product_eq_compact (A := { A with strategy := s }) hS h0 ha hb
    · rw [hterms, coeff_productOfPairs hS]

/-- The product of `2 e₀ + 3 e₁` and `e₀ + e₂`, where the square of `e₀` is `1`. -/
theorem product_eq_sum_mixed :
    ∃ c, (∀ s : Strategy, (⟨.mixed, .integers, s⟩ : Algebra Int).product .geometric
        (.ofBlades [(1, 2), (2, 3)]) (.ofBlades [(1, 1), (4, 1)]) = .ok c) ∧
      ((0, 2) ∈ c.terms ∧ (3, -3) ∈ c.terms ∧ (5, 2) ∈ c.terms ∧ (6, 3) ∈ c.terms) := by
  have ha : (Multivector.ofBlades [(1, (2 : Int)), (2, 3)]).validate 3 = .ok () := by cbv
  have hb : (Multivector.ofBlades [(1, (1 : Int)), (4, 1)]).validate 3 = .ok () := by cbv
  obtain ⟨c, hc, -, hterms⟩ := (product_eq_sum ⟨.mixed, .integers, .auto⟩ Scalars.isRing_integers
    rfl .geometric _ _).2 ha hb
  refine ⟨c, hc, ?_⟩
  simp only [hterms]
  refine ⟨⟨?_, rfl⟩, ⟨?_, rfl⟩, ⟨?_, rfl⟩, ⟨?_, rfl⟩⟩
  all_goals decide +kernel

end Ring

end Algebra

end GeometricAlgebra

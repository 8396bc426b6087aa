import GeometricAlgebra.Proofs.Algebra.Families
import GeometricAlgebra.Proofs.BladeTree.Grades
import GeometricAlgebra.Proofs.BladeTree.Images
import GeometricAlgebra.Proofs.Multivector.Updates
import GeometricAlgebra.Proofs.Outermorphism.Built

set_option autoImplicit false

/-! # All results are in canonical form

Whatever the arithmetic, what an operation gives belongs to the algebra, has no coefficient that
counts as zero, and is in the form that its terms determine (`Canonical`). Every operation ends in
`compact`, so all there is to show of it is that it collects no blade outside the algebra
(`canonical_compact`). For maps this rests on how maps are built.

Programs put operations together: a step works on multivectors from outside and on the results of
earlier steps, with a strategy of its own. All their results are canonical, so two of them with the
same coefficients are the same (`run_canonical`). -/

namespace GeometricAlgebra

open Blade BladeTree Product

variable {α : Type}

namespace Algebra

variable {A : Algebra α} {a b m m' : Multivector α} {t : Terms α}

/-! ## Canonical multivectors -/

/-- A multivector of the algebra without zeros, in the form that its terms determine. -/
structure Canonical (A : Algebra α) (m : Multivector α) : Prop where
  valid : A.validate m = .ok ()
  nonzero : ∀ t ∈ m.terms, A.scalars.isZero t.2 = false
  compact : Terms.compact A.scalars m.toTerms = m

/-- **Terms of the algebra are returned in canonical form.** -/
theorem canonical_compact (ht : t.Within A.dimension) :
    A.Canonical (Terms.compact A.scalars t) where
  valid := validate_eq_ok_iff.mpr (Terms.inRange_compact A.dimension_le ht)
  nonzero := fun ⟨_, _⟩ hs => ((Terms.mem_terms_compact A.dimension_le ht).mp hs).2
  compact := by
    rw [Terms.toTerms_compact A.dimension_le ht, Terms.compact, Terms.dropZeros_idem,
      ← Terms.compact]

theorem Canonical.eq_of_toTerms_eq (h : A.Canonical m) (h' : A.Canonical m')
    (heq : m.toTerms = m'.toTerms) : m = m' := by
  rw [← h.compact, heq, h'.compact]

/-- The strategy has no part in this. -/
theorem Canonical.of_strategy {s : Strategy}
    (h : ({ A with strategy := s } : Algebra α).Canonical m) :
    A.Canonical m :=
  ⟨h.valid, h.nonzero, h.compact⟩

/-! ## Every operation stays in the algebra -/

theorem lt_of_mem_terms (ha : A.validate a = .ok ()) {s : Nat × α} (hs : s ∈ a.terms) :
    s.1 < 2 ^ A.dimension :=
  Multivector.lt_of_mem_terms A.dimension_le (validate_eq_ok_iff.mp ha) hs

theorem within_foldl_terms (ha : A.validate a = .ok ()) {step : Terms α → Nat × α → Terms α}
    (hstep : ∀ s, Terms.Touches s.1 fun t => step t s) (ht : t.Within A.dimension) :
    (a.terms.foldl step t).Within A.dimension :=
  ht.foldl fun s hs => ⟨hstep s, lt_of_mem_terms ha hs⟩

theorem within_toTerms (ha : A.validate a = .ok ()) : a.toTerms.Within A.dimension :=
  Terms.within_ofList fun _ => lt_of_mem_terms ha

/-- The product of two blades has no vectors but theirs. -/
theorem within_signedPairs (k : Product) (ha : A.validate a = .ok ()) (hb : A.validate b = .ok ())
    {l : List (SignedPair α)} (hl : ∀ p ∈ l, p ∈ signedPairs k A.signature a.terms b.terms) :
    (l.foldl A.addPair ∅).Within A.dimension := by
  refine Terms.within_empty.foldl fun p hp => ⟨Terms.touches_addSigned A.scalars _ _ _, ?_⟩
  obtain ⟨hfirst, hsecond, -, -⟩ := mem_signedPairs.mp (hl p hp)
  exact Nat.xor_lt_two_pow (lt_of_mem_terms ha hfirst) (lt_of_mem_terms hb hsecond)

theorem within_product (k : Product) (ha : A.validate a = .ok ()) (hb : A.validate b = .ok ()) :
    (A.productOfTree k a b).Within A.dimension ∧ (A.productOfPairs k a b).Within A.dimension := by
  rw [productOfTree_eq_foldl, productOfPairs_eq_foldl]
  have hperm := perm_pairsOf k (validate_eq_ok_iff.mp ha) (validate_eq_ok_iff.mp hb)
  exact ⟨within_signedPairs k ha hb fun p => hperm.mem_iff.mp,
    within_signedPairs k ha hb fun p => id⟩

theorem canonical_of_product {k : Product} (h : A.product k a b = .ok m) : A.Canonical m := by
  obtain ⟨ha, hb, rfl⟩ := product_eq_ok_iff.mp h
  refine canonical_compact ?_
  split
  · exact (within_product k ha hb).1
  · exact (within_product k ha hb).2

theorem canonical_of_add (h : A.add a b = .ok m) : A.Canonical m := by
  obtain ⟨⟨⟩, ha, h⟩ := bind_eq_ok_iff.mp h
  obtain ⟨⟨⟩, hb, h⟩ := bind_eq_ok_iff.mp h
  cases h
  exact canonical_compact (within_foldl_terms hb (fun s => Terms.touches_add _ s.1 s.2)
    (within_toTerms ha))

theorem canonical_of_subtract (h : A.subtract a b = .ok m) : A.Canonical m := by
  obtain ⟨⟨⟩, ha, h⟩ := bind_eq_ok_iff.mp h
  obtain ⟨⟨⟩, hb, h⟩ := bind_eq_ok_iff.mp h
  cases h
  exact canonical_compact (within_foldl_terms hb (fun s => Terms.touches_subtract _ s.1 s.2)
    (within_toTerms ha))

theorem canonical_of_scale {factor : α} (h : A.scale a factor = .ok m) : A.Canonical m := by
  obtain ⟨⟨⟩, ha, h⟩ := bind_eq_ok_iff.mp h
  cases h
  exact canonical_compact (within_foldl_terms ha (fun s => Terms.touches_add _ s.1 _)
    Terms.within_empty)

theorem canonical_of_negate (h : A.negate a = .ok m) : A.Canonical m := by
  obtain ⟨⟨⟩, ha, h⟩ := bind_eq_ok_iff.mp h
  cases h
  exact canonical_compact (within_foldl_terms ha (fun s => Terms.touches_subtract _ s.1 s.2)
    Terms.within_empty)

theorem canonical_of_gradePart {grades : List Nat} (h : A.gradePart a grades = .ok m) :
    A.Canonical m := by
  obtain ⟨⟨⟩, ha, h⟩ := bind_eq_ok_iff.mp h
  cases h
  refine canonical_compact (Terms.within_ofList fun s hs => lt_of_mem_terms ha ?_)
  exact (mem_rootTerms A.dimension_le (validate_eq_ok_iff.mp ha)).mp
    (mem_rootTerms_of_mem_termsOfGrades s hs)

theorem canonical_of_mapGradeSign {signOf : Nat → Int} (h : A.mapGradeSign signOf a = .ok m) :
    A.Canonical m := by
  obtain ⟨⟨⟩, ha, h⟩ := bind_eq_ok_iff.mp h
  cases h
  exact canonical_compact (within_foldl_terms ha (fun s => Terms.touches_addSigned _ s.1 _ s.2)
    Terms.within_empty)

theorem canonical_of_dual (h : A.dual a = .ok m) : A.Canonical m := by
  obtain ⟨_, -, h⟩ := bind_eq_ok_iff.mp h
  exact canonical_of_product h

/-- A division that succeeds gives every blade a coefficient that had one. -/
theorem within_divideTerms {l : List (Nat × α)} {divisor : α} (hl : ∀ s ∈ l, s.1 < 2 ^ A.dimension)
    (h : A.divideTerms l divisor = .ok t) : t.Within A.dimension := by
  refine of_foldlM_eq_ok (P := Terms.Within A.dimension) (fun s hs t u ht hu => ?_)
    Terms.within_empty h
  obtain ⟨v, -, hv⟩ := bind_eq_ok_iff.mp hu
  cases hv
  exact (Terms.touches_insert s.1 v).within (hl s hs) ht

theorem canonical_of_versorInverse (h : A.versorInverse a = .ok m) : A.Canonical m := by
  obtain ⟨reversed, hreversed, h⟩ := bind_eq_ok_iff.mp h
  obtain ⟨norm, -, h⟩ := bind_eq_ok_iff.mp h
  split at h
  · cases h
  · obtain ⟨t, ht, h⟩ := bind_eq_ok_iff.mp h
    cases h
    have hvalid := (canonical_of_mapGradeSign hreversed).valid
    exact canonical_compact (within_divideTerms (fun _ => lt_of_mem_terms hvalid) ht)

/-! ## Maps -/

section Images

variable {S : Scalars α} {n : Nat} {images : List (Terms α)}
  (himages : ∀ image ∈ images, image.Within n)

include himages

/-- Whatever vectors are decided, the product of their images stays in the algebra. -/
theorem within_running {mv : Multivector α} {leaf : Node (ImageState α)}
    (hleaf : leaf ∈ imageLeaves S images mv) : leaf.state.running.Within n := by
  refine forall_leavesBelow (P := fun _ node => node.state.running.Within n) ?_
    ((Terms.touches_insert 0 S.one).within (Nat.two_pow_pos n) Terms.within_empty) leaf hleaf
  intro _ node b s hnode _ hs
  rw [childNode, (imageBranch_cases hs).2.2]
  split
  · exact (Terms.getD_of_forall Terms.within_empty himages node.childVector).wedge hnode
  · exact hnode

theorem within_sumOfImages (mv : Multivector α) : (sumOfImages S images mv).1.Within n := by
  rw [sumOfImages_eq_foldl]
  refine List.foldlRecOn _ _ Terms.within_empty fun sum hsum leaf hleaf => ?_
  simp only [imageWalker]
  split
  · exact hsum.foldl fun u hu => ⟨Terms.touches_add S u.1 _,
      within_running himages hleaf u.1 (Terms.mem_of_mem_toList hu)⟩
  · exact hsum

end Images

theorem canonical_of_map {f : Outermorphism α} (hf : f.Built) (h : A.map f a = .ok m) :
    A.Canonical m := by
  rw [map] at h
  split at h
  · cases h
  · next htarget =>
      obtain ⟨⟨⟩, -, h⟩ := bind_eq_ok_iff.mp h
      cases h
      refine canonical_compact (within_sumOfImages (fun image himage b hb => ?_) a)
      rw [← not_not.mp htarget]
      exact (hf.wellFormed.vectors image himage b hb).1

end Algebra

/-! ## Programs -/

namespace Algebra

/-- An operation on one multivector. -/
inductive Unary (α : Type) where
  | scale (factor : α)
  | negate
  | gradePart (grades : List Nat)
  | reverse
  | gradeInvolution
  | cliffordConjugate
  | dual
  | undual
  | versorInverse
  | map (f : Outermorphism α) (built : f.Built)

/-- An operation on two multivectors. -/
inductive Binary where
  | product (k : Product)
  | add
  | subtract

def Unary.eval (A : Algebra α) (a : Multivector α) : Unary α → Except Error (Multivector α)
  | scale factor => A.scale a factor
  | negate => A.negate a
  | gradePart grades => A.gradePart a grades
  | reverse => A.reverse a
  | gradeInvolution => A.gradeInvolution a
  | cliffordConjugate => A.cliffordConjugate a
  | dual => A.dual a
  | undual => A.undual a
  | versorInverse => A.versorInverse a
  | map f _ => A.map f a

def Binary.eval (A : Algebra α) (a b : Multivector α) : Binary → Except Error (Multivector α)
  | product k => A.product k a b
  | add => A.add a b
  | subtract => A.subtract a b

/-- What an operation works on: any multivector, or what an earlier step gave. -/
inductive Operand (α : Type) where
  | input (m : Multivector α)
  | result (i : Nat)

/-- A step of a program, with the strategy for its products. -/
inductive Step (α : Type) where
  | unary (s : Strategy) (op : Unary α) (a : Operand α)
  | binary (s : Strategy) (op : Binary) (a b : Operand α)

/-- The value of an operand, where `known` are the results so far, with none for a step that
    failed. -/
def Operand.value? (known : List (Option (Multivector α))) : Operand α → Option (Multivector α)
  | input m => some m
  | result i => known[i]?.join

/-- What a step gives, if it has its operands and succeeds. -/
def Step.result? (A : Algebra α) (known : List (Option (Multivector α))) :
    Step α → Option (Multivector α)
  | unary s op a => do (op.eval { A with strategy := s } (← a.value? known)).toOption
  | binary s op a b => do
    (op.eval { A with strategy := s } (← a.value? known) (← b.value? known)).toOption

/-- The results of a program, step by step. -/
def run (A : Algebra α) (program : List (Step α)) : List (Option (Multivector α)) :=
  program.foldl (fun known step => known ++ [step.result? A known]) []

section Programs

variable {A : Algebra α} {a b m : Multivector α}

theorem Unary.canonical {op : Unary α} (h : op.eval A a = .ok m) : A.Canonical m := by
  cases op with
  | scale factor => exact canonical_of_scale h
  | negate => exact canonical_of_negate h
  | gradePart grades => exact canonical_of_gradePart h
  | reverse => exact canonical_of_mapGradeSign h
  | gradeInvolution => exact canonical_of_mapGradeSign h
  | cliffordConjugate => exact canonical_of_mapGradeSign h
  | dual => exact canonical_of_dual h
  | undual => exact canonical_of_product h
  | versorInverse => exact canonical_of_versorInverse h
  | map f built => exact canonical_of_map built h

theorem Binary.canonical {op : Binary} (h : op.eval A a b = .ok m) : A.Canonical m := by
  cases op with
  | product k => exact canonical_of_product h
  | add => exact canonical_of_add h
  | subtract => exact canonical_of_subtract h

/-- A step gives a canonical multivector, whatever it works on. -/
theorem Step.canonical {known : List (Option (Multivector α))} {step : Step α}
    (h : step.result? A known = some m) : A.Canonical m := by
  cases step with
  | unary s op a =>
      obtain ⟨_, -, h⟩ := Option.bind_eq_some_iff.mp h
      exact (Unary.canonical (toOption_eq_some_iff.mp h)).of_strategy
  | binary s op a b =>
      obtain ⟨_, -, h⟩ := Option.bind_eq_some_iff.mp h
      obtain ⟨_, -, h⟩ := Option.bind_eq_some_iff.mp h
      exact (Binary.canonical (toOption_eq_some_iff.mp h)).of_strategy

theorem canonical_of_mem_run {program : List (Step α)} (h : some m ∈ A.run program) :
    A.Canonical m := by
  refine List.foldlRecOn (motive := fun known => ∀ m, some m ∈ known → A.Canonical m) program _
    (fun _ hm => absurd hm List.not_mem_nil) (fun known hknown step _ m hm => ?_) m h
  rcases List.mem_append.mp hm with hm | hm
  · exact hknown m hm
  · exact Step.canonical (List.mem_singleton.mp hm).symm

/-- **Whatever the arithmetic, every result of a program is in canonical form.** It belongs to the
    algebra, has no coefficient that counts as zero, and collecting its terms again gives it back.
    So results of any two programs that have the same coefficients are the same. -/
theorem run_canonical (A : Algebra α) (program : List (Step α)) :
    ∀ m, some m ∈ A.run program →
      A.validate m = .ok () ∧ (∀ t ∈ m.terms, A.scalars.isZero t.2 = false) ∧
      Terms.compact A.scalars m.toTerms = m ∧
      ∀ (program' : List (Step α)) (m' : Multivector α), some m' ∈ A.run program' →
        m.toTerms = m'.toTerms → m = m' := by
  intro m hm
  have h := canonical_of_mem_run hm
  exact ⟨h.valid, h.nonzero, h.compact,
    fun _ _ hm' => h.eq_of_toTerms_eq (canonical_of_mem_run hm')⟩

end Programs

/-- A product of operands with a stored zero, and a difference after a step that fails. Both give
    `10 e₁ + 6 e₀ e₁`. -/
theorem run_canonical_mixed :
    let A : Algebra Int := ⟨.mixed, .integers, .auto⟩
    let program : List (Step Int) :=
      [.binary .tree (.product .geometric) (.input (.ofBlades [(1, 2), (6, 0)]))
        (.input (.ofGrades [(1, 1, 3), (2, 0, 5)]))]
    let program' : List (Step Int) :=
      [.unary .auto .versorInverse (.input .zero),
        .unary .auto .negate (.input (.ofBlades [(3, 6)])),
        .binary .auto .subtract (.input (.ofBlades [(2, 10)])) (.result 1)]
    let m : Multivector Int := .ofBlades [(2, 10), (3, 6)]
    let m' : Multivector Int := .ofBlades [(3, 6), (2, 10)]
    some m ∈ A.run program ∧ A.run program' = [none, some (.ofRanks 2 [(0, -6)]), some m'] ∧
      A.validate m = .ok () ∧ Terms.compact A.scalars m.toTerms = m ∧ m = m' := by
  intro A program program' m m'
  have hm : some m ∈ A.run program := List.mem_of_getElem? (i := 0) (by cbv)
  have hrun : A.run program' = [none, some (.ofRanks 2 [(0, -6)]), some m'] := by cbv
  have hm' : some m' ∈ A.run program' := by
    rw [hrun]
    exact List.mem_of_getElem? (i := 2) rfl
  obtain ⟨hvalid, -, hcompact, hunique⟩ := run_canonical A program m hm
  exact ⟨hm, hrun, hvalid, hcompact, hunique program' m' hm' (by cbv)⟩

end Algebra

end GeometricAlgebra

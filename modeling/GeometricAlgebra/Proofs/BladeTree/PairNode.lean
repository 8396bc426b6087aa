import GeometricAlgebra.BladeTree.Pairs
import GeometricAlgebra.Proofs.BladeTree.Node
import GeometricAlgebra.Proofs.BladeTree.Walk
import GeometricAlgebra.Proofs.Product.Sign

set_option autoImplicit false

/-! # What a node of the walk over pairs knows

The walk decides one vector after another whether a pair of blades is still `Kept`, and builds its
sign on the way. `PairNode` is the invariant of a node: its flags, its parity and its metric sign
are those of the two blades so far, its terms are the terms below it, and the two blades are kept.
By `descendPair_eq_some_iff` a child is accepted iff its blades are kept and there are terms below
it, so the invariant goes down (`PairNode.child`) and no pair with a product is lost on the way. At
a leaf the two blades are those of the terms, and `sign_eq_ite` says that the product keeps exactly
these pairs, with the sign the walk has built. -/

namespace GeometricAlgebra

namespace BladeTree

open Blade Product

/-! ## One more vector -/

section PutVector

variable {a b d : Nat}

/-- A vector of the second blade has to pass every later vector of the first. -/
theorem reorderSign_ofVector_right (h : Decided (d + 1) a) :
    reorderSign a (ofVector d) = (-1) ^ grade a := by
  rw [reorderSign_eq_prod, vectorSet_ofVector, grade_eq_card, ← Finset.prod_const]
  refine Finset.prod_congr rfl fun i hi => ?_
  have := h.lt_of_mem hi
  rw [Finset.prod_singleton, swapSign, if_pos (by omega)]

theorem reorderSign_ofVector_left (h : Decided d b) : reorderSign (ofVector d) b = 1 := by
  rw [reorderSign_eq_prod, vectorSet_ofVector, Finset.prod_singleton]
  refine Finset.prod_eq_one fun j hj => ?_
  have := h.lt_of_mem hj
  rw [swapSign, if_neg (by omega)]

theorem Decided.testBit_self (h : Decided (d + 1) b) : b.testBit d = false :=
  h d (Nat.lt_succ_self d)

theorem reorderSign_putVector (ha : Decided (d + 1) a) (hb : Decided (d + 1) b) (x y : Bool) :
    reorderSign (putVector a d x) (putVector b d y)
      = reorderSign a b * if y then (-1) ^ grade a else 1 := by
  have hx : reorderSign (if x then ofVector d else 0) (putVector b d y) = 1 := by
    cases x with
    | false => exact reorderSign_zero_left _
    | true => exact reorderSign_ofVector_left (hb.putVector y)
  have hy : reorderSign a (if y then ofVector d else 0) = if y then (-1) ^ grade a else 1 := by
    cases y with
    | false => exact reorderSign_zero_right _
    | true => exact reorderSign_ofVector_right ha
  rw [putVector_eq_xor x ha.testBit_self, reorderSign_xor_left, hx, mul_one,
    putVector_eq_xor y hb.testBit_self, reorderSign_xor_right, hy]

theorem putVector_and (ha : a.testBit d = false) (hb : b.testBit d = false) (x y : Bool) :
    putVector a d x &&& putVector b d y = putVector (a &&& b) d (x && y) := by
  apply Nat.eq_of_testBit_eq
  intro i
  rw [Nat.testBit_and, testBit_putVector, testBit_putVector, testBit_putVector, Nat.testBit_and]
  by_cases hi : d = i
  · subst hi
    simp [ha, hb]
  · simp [hi]

theorem metricSign_putVector (sig : Signature) (h : b.testBit d = false) (taken : Bool) :
    metricSign sig (putVector b d taken)
      = metricSign sig b * if taken then (sig.square d).sign else 1 := by
  cases taken with
  | false => exact (mul_one _).symm
  | true =>
      have hdisjoint : Disjoint (vectorSet b) {d} := by simpa using h
      rw [metricSign_eq_prod, metricSign_eq_prod, putVector, if_pos rfl, vectorSet_or,
        vectorSet_ofVector, Finset.prod_union hdisjoint, Finset.prod_singleton, if_pos rfl]

theorem within_putVector (ha : a.testBit d = false) (hb : b.testBit d = false) (x y : Bool) :
    within (putVector a d x) (putVector b d y) = (within a b && !(x && !y)) := by
  rw [Bool.eq_iff_iff, Bool.and_eq_true, within_iff, within_iff]
  constructor
  · intro h
    refine ⟨fun i hi => ?_, ?_⟩
    · have hne : d ≠ i := by rintro rfl; rw [ha] at hi; cases hi
      have := h i
      rw [testBit_putVector_of_ne x hne, testBit_putVector_of_ne y hne] at this
      exact this hi
    · have := h d
      rw [testBit_putVector_self x ha, testBit_putVector_self y hb] at this
      cases x <;> simp_all
  · rintro ⟨h, hxy⟩ i hi
    by_cases hne : d = i
    · subst hne
      rw [testBit_putVector_self x ha] at hi
      rw [testBit_putVector_self y hb]
      subst hi
      simpa using hxy
    · rw [testBit_putVector_of_ne x hne] at hi
      rw [testBit_putVector_of_ne y hne]
      exact h i hi

end PutVector

/-! ## Pairs of blades that the way down keeps -/

/-- What the way down asks of a pair of blades: no vector is dropped, for the products that ask for
    it one blade is within the other, and no shared vector squares to zero. -/
structure Kept (k : Product) (sig : Signature) (a b : Nat) : Prop where
  vectors : ∀ i, dropsVector k (a.testBit i) (b.testBit i) = false
  apart : dropsApart k = true → (within a b || within b a) = true
  metric : metricSign sig (a &&& b) ≠ 0

section Kept

variable {k : Product} {sig : Signature} {a b : Nat}

theorem dropsVector_false_false (k : Product) : dropsVector k false false = false := by
  cases k <;> rfl

theorem kept_zero (k : Product) (sig : Signature) : Kept k sig 0 0 where
  vectors i := by rw [Nat.zero_testBit, dropsVector_false_false]
  apart _ := rfl
  metric := by simp

open Classical in
/-- **The product of two blades is not zero iff the pair is kept on the way down and at the
    leaf.** -/
theorem sign_eq_ite (k : Product) (sig : Signature) (a b : Nat) :
    sign k sig a b
      = if (∀ i, dropsVector k (a.testBit i) (b.testBit i) = false)
          ∧ (dropsApart k = true → (within a b || within b a) = true) ∧ keepsLeaf k a b = true
        then geometricSign sig a b else 0 := by
  rw [sign_eq]
  cases k with
  | outer => simp [keeps, filterCommuting, dropsVector, dropsApart, keepsLeaf, and_eq_zero_iff]
  | scalar =>
      have heq : a = b ↔ ∀ i, a.testBit i = b.testBit i :=
        ⟨fun h i => by rw [h], Nat.eq_of_testBit_eq⟩
      simp [keeps, filterCommuting, dropsVector, dropsApart, keepsLeaf, heq]
  | left => simp [keeps, filterCommuting, dropsVector, dropsApart, keepsLeaf, within_iff]
  | right => simp [keeps, filterCommuting, dropsVector, dropsApart, keepsLeaf, within_iff]
  | geometric => simp [keeps, filterCommuting, dropsVector, dropsApart, keepsLeaf]
  | fatDot => simp [keeps, filterCommuting, dropsVector, dropsApart, keepsLeaf]
  | hestenes =>
      simp [keeps, filterCommuting, dropsVector, dropsApart, keepsLeaf, and_comm, and_assoc]
  | commutator =>
      cases hc : commute a b <;>
        simp [keeps, filterCommuting, dropsVector, dropsApart, keepsLeaf, hc]
  | anticommutator =>
      simp [keeps, filterCommuting, dropsVector, dropsApart, keepsLeaf]

theorem geometricSign_ne_zero_iff : geometricSign sig a b ≠ 0 ↔ metricSign sig (a &&& b) ≠ 0 := by
  rw [geometricSign_eq]
  simp [reorderSign_ne_zero]

theorem sign_ne_zero_iff : sign k sig a b ≠ 0 ↔ Kept k sig a b ∧ keepsLeaf k a b = true := by
  rw [sign_eq_ite]
  constructor
  · intro h
    split at h
    · next hkept =>
        obtain ⟨hvectors, hapart, hleaf⟩ := hkept
        exact ⟨⟨hvectors, hapart, geometricSign_ne_zero_iff.mp h⟩, hleaf⟩
    · exact absurd rfl h
  · rintro ⟨h, hleaf⟩
    rw [if_pos ⟨h.vectors, h.apart, hleaf⟩]
    exact geometricSign_ne_zero_iff.mpr h.metric

theorem Kept.sign_eq (h : Kept k sig a b) (hleaf : keepsLeaf k a b = true) :
    sign k sig a b = geometricSign sig a b := by
  rw [sign_eq_ite, if_pos ⟨h.vectors, h.apart, hleaf⟩]

theorem within_truncated {a' b' : Nat} (h : within a b = true)
    (htrunc : ∀ i, (a'.testBit i = a.testBit i ∧ b'.testBit i = b.testBit i) ∨
      a'.testBit i = false) : within a' b' = true := by
  rw [within_iff] at h ⊢
  intro i hi
  rcases htrunc i with ⟨ha, hb⟩ | ha
  · rw [hb]
    exact h i (ha ▸ hi)
  · rw [ha] at hi
    cases hi

/-- Pairs stay kept when vectors are taken out of both blades at once. -/
theorem Kept.of_truncated {a' b' : Nat} (h : Kept k sig a b)
    (htrunc : ∀ i, (a'.testBit i = a.testBit i ∧ b'.testBit i = b.testBit i) ∨
      (a'.testBit i = false ∧ b'.testBit i = false)) : Kept k sig a' b' where
  vectors i := by
    rcases htrunc i with ⟨ha, hb⟩ | ⟨ha, hb⟩
    · rw [ha, hb]
      exact h.vectors i
    · rw [ha, hb, dropsVector_false_false]
  apart hk := by
    have hwithin := h.apart hk
    rw [Bool.or_eq_true] at hwithin ⊢
    rcases hwithin with hab | hba
    · exact Or.inl (within_truncated hab fun i => (htrunc i).imp_right And.left)
    · exact Or.inr (within_truncated hba fun i => (htrunc i).imp And.symm And.right)
  metric := by
    have hmetric := h.metric
    rw [metricSign_eq_prod, Finset.prod_ne_zero_iff] at hmetric ⊢
    intro i hi
    rw [mem_vectorSet, Nat.testBit_and, Bool.and_eq_true] at hi
    refine hmetric i ?_
    rcases htrunc i with ⟨ha, hb⟩ | ⟨ha, _⟩
    · rw [mem_vectorSet, Nat.testBit_and, ← ha, ← hb, hi.1, hi.2]
      rfl
    · rw [ha] at hi
      exact absurd hi.1 (by decide)

/-- Whether one more vector is kept is up to that vector, apart from the flags. -/
theorem Kept.putVector_iff {d : Nat} (h : Kept k sig a b) (ha : a.testBit d = false)
    (hb : b.testBit d = false) (x y : Bool) :
    Kept k sig (putVector a d x) (putVector b d y) ↔
      dropsVector k x y = false ∧
      (dropsApart k = true → (within (putVector a d x) (putVector b d y)
        || within (putVector b d y) (putVector a d x)) = true) ∧
      (if (x && y) = true then (sig.square d).sign else 1) ≠ 0 := by
  have hab : (a &&& b).testBit d = false := by
    rw [Nat.testBit_and, ha, hb]
    rfl
  constructor
  · intro h'
    have hvector := h'.vectors d
    have hmetric := h'.metric
    rw [testBit_putVector_self x ha, testBit_putVector_self y hb] at hvector
    rw [putVector_and ha hb, metricSign_putVector sig hab] at hmetric
    exact ⟨hvector, h'.apart, right_ne_zero_of_mul hmetric⟩
  · rintro ⟨hvector, hapart, hsquare⟩
    refine ⟨fun i => ?_, hapart, ?_⟩
    · by_cases hi : d = i
      · subst hi
        rw [testBit_putVector_self x ha, testBit_putVector_self y hb]
        exact hvector
      · rw [testBit_putVector_of_ne x hi, testBit_putVector_of_ne y hi]
        exact h.vectors i
    · rw [putVector_and ha hb, metricSign_putVector sig hab]
      exact mul_ne_zero h.metric hsquare

end Kept

/-! ## The invariant -/

section PairNode

variable {α : Type}

/-- What is known about a node at depth `d`, where `first` and `second` are the terms below the
    root. -/
structure PairNode (k : Product) (sig : Signature) (first second : List (Nat × α)) (d : Nat)
    (node : Node (PairState α)) : Prop where
  depth : node.depth = d
  decided_first : Decided d node.blade
  decided_second : Decided d node.state.second
  odd : (if node.state.odd then -1 else 1) = reorderSign node.blade node.state.second
  metric : node.state.metric = metricSign sig (node.blade &&& node.state.second)
  left : node.state.left = within node.blade node.state.second
  right : node.state.right = within node.state.second node.blade
  below_first : Below first d node.blade node.state.firstTerms
  below_second : Below second d node.state.second node.state.secondTerms
  kept : Kept k sig node.blade node.state.second

variable {k : Product} {sig : Signature} {first second : List (Nat × α)} {d : Nat}
  {node : Node (PairState α)}

/-- The state that a child gets, if it is accepted. -/
def childPair (sig : Signature) (node : Node (PairState α)) (x y : Bool) : PairState α where
  second := putVector node.state.second node.childVector y
  odd := node.state.odd != (y && grade node.blade % 2 == 1)
  metric := node.state.metric * if (x && y) = true then (sig.square node.childVector).sign else 1
  left := node.state.left && !(x && !y)
  right := node.state.right && !(y && !x)
  firstTerms := childTerms node x node.state.firstTerms
  secondTerms := childTerms node y node.state.secondTerms

theorem PairNode.childVector (h : PairNode k sig first second (d + 1) node) :
    node.childVector = d :=
  childVector_eq h.depth

theorem PairNode.childBlade (h : PairNode k sig first second (d + 1) node) (x : Bool) :
    node.childBlade x = putVector node.blade d x :=
  childBlade_eq_putVector h.depth x

theorem PairNode.second_childPair (h : PairNode k sig first second (d + 1) node) (x y : Bool) :
    (childPair sig node x y).second = putVector node.state.second d y := by
  rw [← h.childVector]
  rfl

/-- What an accepted child is: the state made for it, with terms in both lists. -/
theorem descendPair_cases {x y : Bool} {s : PairState α}
    (hs : descendPair k sig node x y = some s) :
    s = childPair sig node x y ∧ childTerms node x node.state.firstTerms ≠ [] ∧
      childTerms node y node.state.secondTerms ≠ [] := by
  simp only [descendPair, Option.ite_none_left_eq_some, Option.some.injEq, Bool.or_eq_true,
    List.isEmpty_iff, not_or] at hs
  obtain ⟨-, -, -, ⟨hfirst, hsecond⟩, rfl⟩ := hs
  exact ⟨rfl, hfirst, hsecond⟩

/-- **A child is accepted iff its blades are kept and both multivectors have terms below it.** -/
theorem descendPair_eq_some_iff (h : PairNode k sig first second (d + 1) node) {x y : Bool}
    {s : PairState α} :
    descendPair k sig node x y = some s ↔
      Kept k sig (putVector node.blade d x) (putVector node.state.second d y) ∧
      childTerms node x node.state.firstTerms ≠ [] ∧
      childTerms node y node.state.secondTerms ≠ [] ∧ s = childPair sig node x y := by
  have ha := h.decided_first.testBit_self
  have hb := h.decided_second.testBit_self
  have hapart : ∀ p l r : Bool, ¬ (p && !l && !r) = true ↔ (p = true → l = true ∨ r = true) := by
    decide
  rw [h.kept.putVector_iff ha hb, within_putVector ha hb, within_putVector hb ha, ← h.left,
    ← h.right, ← h.childVector]
  -- the four conditions of a child, one after the other
  simp only [descendPair, Option.ite_none_left_eq_some, Option.some.injEq, Bool.or_eq_true,
    List.isEmpty_iff, not_or]
  rw [and_assoc, and_assoc, Bool.not_eq_true, hapart, and_assoc, @eq_comm _ _ s]
  rfl

theorem pairSign_bne (p q : Bool) :
    (if p != q then -1 else 1 : Int) = (if p then -1 else 1) * if q then -1 else 1 := by
  cases p <;> cases q <;> rfl

/-- The parity of the vectors to pass is the sign of passing them. -/
theorem pairSign_grade (b : Nat) (y : Bool) :
    (if y && grade b % 2 == 1 then -1 else 1 : Int) = if y then (-1) ^ grade b else 1 := by
  rw [neg_one_pow_eq_ite]
  rcases Nat.mod_two_eq_zero_or_one (grade b) with h | h
  · simp [h, Nat.even_iff]
  · simp [h, Nat.even_iff]

/-- The invariant goes down to every child whose blades are kept. -/
theorem PairNode.child (h : PairNode k sig first second (d + 1) node) {x y : Bool}
    (hkept : Kept k sig (putVector node.blade d x) (putVector node.state.second d y)) :
    PairNode k sig first second d
      ⟨node.depth - 1, node.childBlade x, childPair sig node x y⟩ := by
  have ha := h.decided_first.testBit_self
  have hb := h.decided_second.testBit_self
  have hab : (node.blade &&& node.state.second).testBit d = false := by
    rw [Nat.testBit_and, ha, hb]
    rfl
  have hsecond := h.second_childPair x y
  rw [h.childBlade]
  exact {
    depth := by rw [h.depth, Nat.add_sub_cancel]
    decided_first := h.decided_first.putVector x
    decided_second := by
      simp only [hsecond]
      exact h.decided_second.putVector y
    odd := by
      simp only [hsecond]
      rw [reorderSign_putVector h.decided_first h.decided_second, ← h.odd, ← pairSign_grade,
        ← pairSign_bne]
      rfl
    metric := by
      simp only [hsecond]
      rw [putVector_and ha hb, metricSign_putVector sig hab, ← h.metric, ← h.childVector]
      rfl
    left := by
      simp only [hsecond]
      rw [within_putVector ha hb, ← h.left]
      rfl
    right := by
      simp only [hsecond]
      rw [within_putVector hb ha, ← h.right]
      rfl
    below_first := by
      simp only [childPair, childTerms, h.childVector]
      exact h.below_first.filter x ha
    below_second := by
      simp only [childPair, childTerms, h.childVector]
      exact h.below_second.filter y hb
    kept := by
      simp only [hsecond]
      exact hkept }

/-- A pair of terms below a node that the product keeps is below the child it belongs to. -/
theorem PairNode.exists_child (h : PairNode k sig first second (d + 1) node) {s t : Nat × α}
    (hs : s ∈ node.state.firstTerms) (ht : t ∈ node.state.secondTerms) (hst : Kept k sig s.1 t.1) :
    ∃ p, descendPair k sig node (s.1.testBit d) (t.1.testBit d) = some p ∧
      s ∈ p.firstTerms ∧ t ∈ p.secondTerms := by
  have ha := h.decided_first.testBit_self
  have hb := h.decided_second.testBit_self
  have hs' : s ∈ childTerms node (s.1.testBit d) node.state.firstTerms := by
    rw [childTerms, List.mem_filter, h.childVector]
    exact ⟨hs, beq_self_eq_true _⟩
  have ht' : t ∈ childTerms node (t.1.testBit d) node.state.secondTerms := by
    rw [childTerms, List.mem_filter, h.childVector]
    exact ⟨ht, beq_self_eq_true _⟩
  -- the child's blades are those of the terms without the vectors still undecided
  have hkept : Kept k sig (putVector node.blade d (s.1.testBit d))
      (putVector node.state.second d (t.1.testBit d)) := by
    refine hst.of_truncated fun i => ?_
    rcases Nat.lt_or_ge i d with hi | hi
    · exact Or.inr ⟨h.decided_first.putVector _ i hi, h.decided_second.putVector _ i hi⟩
    · rw [childTerms, h.childVector] at hs' ht'
      have hsi := ((h.below_first.filter _ ha s).mp hs').2 i hi
      have hti := ((h.below_second.filter _ hb t).mp ht').2 i hi
      exact Or.inl ⟨hsi.symm, hti.symm⟩
  exact ⟨childPair sig node _ _, (descendPair_eq_some_iff h).mpr
    ⟨hkept, List.ne_nil_of_mem hs', List.ne_nil_of_mem ht', rfl⟩, hs', ht'⟩

/-! ## The root and the leaves -/

/-- The state of the root. -/
def rootPair (n : Nat) (a b : Multivector α) : PairState α where
  second := 0
  odd := false
  metric := 1
  left := true
  right := true
  firstTerms := rootTerms n a
  secondTerms := rootTerms n b

theorem pairNode_root (k : Product) (sig : Signature) (n : Nat) (a b : Multivector α) :
    PairNode k sig (rootTerms n a) (rootTerms n b) n ⟨n, 0, rootPair n a b⟩ where
  depth := rfl
  decided_first i _ := Nat.zero_testBit i
  decided_second i _ := Nat.zero_testBit i
  odd := by simp [rootPair]
  metric := by simp [rootPair]
  left := by simp [rootPair, within]
  right := by simp [rootPair, within]
  below_first := below_rootTerms n a
  below_second := below_rootTerms n b
  kept := kept_zero k sig

/-- At a leaf the walk has built the geometric sign. -/
theorem PairNode.sign_eq (h : PairNode k sig first second d node) :
    node.state.sign = geometricSign sig node.blade node.state.second := by
  rw [geometricSign_eq, ← h.metric, ← h.odd, PairState.sign]
  cases node.state.odd with
  | false => exact (mul_one _).symm
  | true => exact (mul_neg_one _).symm

end PairNode

end BladeTree

end GeometricAlgebra

import GeometricAlgebra.Proofs.BladeTree.PairNode

set_option autoImplicit false

/-! # The pairs that the walk finds

The walk over pairs only folds over its leaves, so the pairs it hands over form a list, `pairsOf`,
that does not depend on what they are folded into. By the invariant of its nodes this list holds
exactly the pairs of terms with a product that is not zero (`mem_pairsOf`). Its order comes from the
numbers of the branches: a branch is the two bits of the blades at the vector it decides, the second
blade's bit counting more, so the leaves ascend in the interleaved bits of the two blades
(`pairwise_leavesBelow`), and no pair comes twice. -/

namespace GeometricAlgebra

namespace BladeTree

open Blade Product

variable {α : Type}

/-! ## The list of pairs -/

/-- The child on a branch, by the two lowest bits of its number. -/
def pairBranch (k : Product) (sig : Signature) (node : Node (PairState α)) (b : Nat) :
    Option (PairState α) :=
  descendPair k sig node (b % 2 == 1) (b / 2 % 2 == 1)

/-- The pair that a leaf hands over, if the product keeps it. -/
def leafPair (k : Product) (node : Node (PairState α)) : Option (SignedPair α) :=
  match node.state.firstTerms, node.state.secondTerms with
  | first :: _, second :: _ =>
    if keepsLeaf k node.blade node.state.second then some ⟨first, second, node.state.sign⟩ else none
  | _, _ => none

/-- The leaves that a walk over pairs reaches. -/
def pairLeaves (k : Product) (sig : Signature) (a b : Multivector α) : List (Node (PairState α)) :=
  leavesBelow 4 (pairBranch k sig) sig.dimension
    ⟨sig.dimension, 0, rootPair sig.dimension a b⟩

/-- The pairs that a walk hands over, in order. -/
def pairsOf (k : Product) (sig : Signature) (a b : Multivector α) : List (SignedPair α) :=
  (pairLeaves k sig a b).filterMap (leafPair k)

theorem leaf_pairWalker {ω : Type} (k : Product) (sig : Signature) (f : ω → SignedPair α → ω)
    (acc : ω) (node : Node (PairState α)) :
    (pairWalker k sig f).leaf acc node = (leafPair k node).elim acc (f acc) := by
  simp only [pairWalker, leafPair]
  cases node.state.firstTerms with
  | nil => rfl
  | cons s _ =>
      cases node.state.secondTerms with
      | nil => rfl
      | cons t _ => cases keepsLeaf k node.blade node.state.second <;> rfl

/-- Whatever the pairs are folded into, they are those of the list. -/
theorem foldPairs_eq_foldl {ω : Type} (k : Product) (sig : Signature) (a b : Multivector α)
    (f : ω → SignedPair α → ω) (init : ω) :
    (foldPairs k sig a b f init).1 = (pairsOf k sig a b).foldl f init := by
  have hwalk : (foldPairs k sig a b f init).1
      = (pairLeaves k sig a b).foldl (pairWalker k sig f).leaf init :=
    walk_state_of_pure (fun _ _ _ => rfl) _ _ _
  rw [hwalk, pairsOf, List.foldl_filterMap]
  refine List.foldl_ext _ _ _ fun acc node _ => ?_
  rw [leaf_pairWalker]
  cases leafPair k node <;> rfl

/-! ## Children by the number of their branch -/

theorem exists_branch (x y : Bool) : ∃ b < 4, (b % 2 == 1) = x ∧ (b / 2 % 2 == 1) = y := by
  revert x y
  decide

/-- The two bits of a branch make up its number. -/
theorem branch_eq {b : Nat} (hb : b < 4) :
    2 * (b / 2 % 2 == 1).toNat + (b % 2 == 1).toNat = b := by
  revert b
  decide

/-- An accepted child satisfies the invariant, and its blades have the vectors of its branch. -/
theorem PairNode.of_branch {k : Product} {sig : Signature} {first second : List (Nat × α)}
    {d b : Nat} {node : Node (PairState α)} {s : PairState α}
    (h : PairNode k sig first second (d + 1) node) (hs : pairBranch k sig node b = some s) :
    PairNode k sig first second d (childNode node b s) ∧
      (childNode node b s).blade = putVector node.blade d (b % 2 == 1) ∧
      (childNode node b s).state.second = putVector node.state.second d (b / 2 % 2 == 1) := by
  obtain ⟨hkept, -, -, rfl⟩ := (descendPair_eq_some_iff h).mp hs
  refine ⟨h.child hkept, ?_, ?_⟩
  · rw [← h.childVector]
    rfl
  · rw [← h.childVector]
    rfl

/-! ## What the list holds -/

section Members

variable {k : Product} {sig : Signature} {a b : Multivector α}

/-- Every leaf satisfies the invariant. -/
theorem pairNode_of_mem_pairLeaves {node : Node (PairState α)} (h : node ∈ pairLeaves k sig a b) :
    PairNode k sig (rootTerms sig.dimension a) (rootTerms sig.dimension b) 0 node := by
  refine forall_leavesBelow (P := PairNode k sig _ _) ?_ (pairNode_root k sig sig.dimension a b)
    node h
  intro d node i s hnode _ hs
  exact (hnode.of_branch hs).1

/-- A pair of terms that the way down keeps has a leaf. -/
theorem exists_mem_pairLeaves {s t : Nat × α} (hs : s ∈ rootTerms sig.dimension a)
    (ht : t ∈ rootTerms sig.dimension b) (hst : Kept k sig s.1 t.1) :
    ∃ node ∈ pairLeaves k sig a b, s ∈ node.state.firstTerms ∧ t ∈ node.state.secondTerms := by
  have hleaf : ∃ node ∈ pairLeaves k sig a b,
      PairNode k sig (rootTerms sig.dimension a) (rootTerms sig.dimension b) 0 node ∧
        s ∈ node.state.firstTerms ∧ t ∈ node.state.secondTerms := by
    refine exists_leavesBelow (P := fun d node => PairNode k sig _ _ d node ∧
      s ∈ node.state.firstTerms ∧ t ∈ node.state.secondTerms) ?_
      ⟨pairNode_root k sig sig.dimension a b, hs, ht⟩
    rintro d node ⟨hnode, hsn, htn⟩
    obtain ⟨p, hp, hsp, htp⟩ := hnode.exists_child hsn htn hst
    obtain ⟨i, hi, hx, hy⟩ := exists_branch (s.1.testBit d) (t.1.testBit d)
    rw [← hx, ← hy] at hp
    exact ⟨i, hi, p, hp, (hnode.of_branch hp).1, hsp, htp⟩
  obtain ⟨node, hnode, -, hst⟩ := hleaf
  exact ⟨node, hnode, hst⟩

theorem leafPair_eq_some_iff {node : Node (PairState α)} {p : SignedPair α} :
    leafPair k node = some p ↔
      node.state.firstTerms.head? = some p.first ∧ node.state.secondTerms.head? = some p.second ∧
        keepsLeaf k node.blade node.state.second = true ∧ p.sign = node.state.sign := by
  obtain ⟨s, t, sign⟩ := p
  rw [leafPair]
  cases node.state.firstTerms with
  | nil => simp
  | cons s' _ =>
      cases node.state.secondTerms with
      | nil => simp
      | cons t' _ =>
          simp only [Option.ite_none_right_eq_some, Option.some.injEq, SignedPair.mk.injEq,
            List.head?_cons]
          constructor
          · rintro ⟨hleaf, rfl, rfl, rfl⟩
            exact ⟨rfl, rfl, hleaf, rfl⟩
          · rintro ⟨rfl, rfl, hleaf, rfl⟩
            exact ⟨hleaf, rfl, rfl, rfl⟩

/-- What a leaf hands over are terms of the whole multivectors, of the leaf's own blades. -/
theorem mem_of_leafPair {node : Node (PairState α)} {p : SignedPair α}
    (h : PairNode k sig (rootTerms sig.dimension a) (rootTerms sig.dimension b) 0 node)
    (hp : leafPair k node = some p) :
    (p.first ∈ rootTerms sig.dimension a ∧ p.first.1 = node.blade) ∧
      p.second ∈ rootTerms sig.dimension b ∧ p.second.1 = node.state.second := by
  obtain ⟨hs, ht, -, -⟩ := leafPair_eq_some_iff.mp hp
  exact ⟨(below_zero_iff h.below_first).mp (List.mem_of_mem_head? hs),
    (below_zero_iff h.below_second).mp (List.mem_of_mem_head? ht)⟩

/-- **The walk hands over exactly the pairs of terms with a product that is not zero.** -/
theorem mem_pairsOf {p : SignedPair α} :
    p ∈ pairsOf k sig a b ↔
      p.first ∈ rootTerms sig.dimension a ∧ p.second ∈ rootTerms sig.dimension b ∧
        p.sign = sign k sig p.first.1 p.second.1 ∧ p.sign ≠ 0 := by
  rw [pairsOf, List.mem_filterMap]
  constructor
  · rintro ⟨node, hnode, hp⟩
    have h := pairNode_of_mem_pairLeaves hnode
    obtain ⟨⟨hs, hsb⟩, ht, htb⟩ := mem_of_leafPair h hp
    obtain ⟨-, -, hleaf, hsign⟩ := leafPair_eq_some_iff.mp hp
    have hsign' : p.sign = sign k sig p.first.1 p.second.1 := by
      rw [hsb, htb, h.kept.sign_eq hleaf, hsign, h.sign_eq]
    refine ⟨hs, ht, hsign', ?_⟩
    rw [hsign', hsb, htb]
    exact sign_ne_zero_iff.mpr ⟨h.kept, hleaf⟩
  · rintro ⟨hs, ht, hsign, hne⟩
    rw [hsign] at hne
    obtain ⟨hkept, hleaf⟩ := sign_ne_zero_iff.mp hne
    obtain ⟨node, hnode, hsn, htn⟩ := exists_mem_pairLeaves hs ht hkept
    have h := pairNode_of_mem_pairLeaves hnode
    have hsb := ((below_zero_iff h.below_first).mp hsn).2
    have htb := ((below_zero_iff h.below_second).mp htn).2
    refine ⟨node, hnode, leafPair_eq_some_iff.mpr ⟨?_, ?_, ?_, ?_⟩⟩
    · exact h.below_first.head?_eq (nodup_map_fst_rootTerms _ a) hsn
    · exact h.below_second.head?_eq (nodup_map_fst_rootTerms _ b) htn
    · rwa [← hsb, ← htb]
    · rw [hsign, hkept.sign_eq hleaf, h.sign_eq, hsb, htb]

end Members

/-! ## The order of the pairs -/

/-- The vectors below `d` of two blades as one number in base 4, the later vectors first. In each
    digit the second blade counts more. -/
def pairKey : (d : Nat) → (a b : Nat) → Nat
  | 0, _, _ => 0
  | d + 1, a, b => (2 * (b.testBit d).toNat + (a.testBit d).toNat) * 4 ^ d + pairKey d a b

theorem pairKey_lt (d a b : Nat) : pairKey d a b < 4 ^ d := by
  induction d with
  | zero => exact Nat.one_pos
  | succ d ih =>
      have hdigit : 2 * (b.testBit d).toNat + (a.testBit d).toNat ≤ 3 := by
        have ha := Bool.toNat_le (a.testBit d)
        have hb := Bool.toNat_le (b.testBit d)
        omega
      rw [pairKey, Nat.pow_succ]
      calc (2 * (b.testBit d).toNat + (a.testBit d).toNat) * 4 ^ d + pairKey d a b
          < 3 * 4 ^ d + 4 ^ d := Nat.add_lt_add_of_le_of_lt (Nat.mul_le_mul_right _ hdigit) ih
        _ = 4 ^ d * 4 := by omega

example : pairKey 2 0b01 0b10 = 0b1001 := by decide

section Order

variable {k : Product} {sig : Signature} {first second : List (Nat × α)}

/-- A leaf agrees with every node above it on the vectors that the node has decided. -/
theorem PairNode.testBit_leaf {d : Nat} {node leaf : Node (PairState α)}
    (h : PairNode k sig first second d node)
    (hleaf : leaf ∈ leavesBelow 4 (pairBranch k sig) d node) {i : Nat} (hi : d ≤ i) :
    leaf.blade.testBit i = node.blade.testBit i ∧
      leaf.state.second.testBit i = node.state.second.testBit i := by
  induction d generalizing node with
  | zero =>
      rw [leavesBelow, List.mem_singleton] at hleaf
      rw [hleaf]
      exact ⟨rfl, rfl⟩
  | succ d ih =>
      obtain ⟨child, hchild, hleaf⟩ := List.mem_flatMap.mp hleaf
      obtain ⟨b, hb, s, hs, rfl⟩ := mem_childrenOf.mp hchild
      obtain ⟨hnode, hblade, hsecond⟩ := h.of_branch hs
      obtain ⟨h₁, h₂⟩ := ih hnode hleaf (Nat.le_of_succ_le hi)
      have hne : d ≠ i := by omega
      rw [h₁, h₂, hblade, hsecond, testBit_putVector_of_ne _ hne, testBit_putVector_of_ne _ hne]
      exact ⟨rfl, rfl⟩

/-- The first digit of the key of a leaf is the branch it is on. -/
theorem PairNode.pairKey_leaf {d b : Nat} {node leaf : Node (PairState α)} {s : PairState α}
    (h : PairNode k sig first second (d + 1) node) (hs : pairBranch k sig node b = some s)
    (hb : b < 4) (hleaf : leaf ∈ leavesBelow 4 (pairBranch k sig) d (childNode node b s)) :
    pairKey (d + 1) leaf.blade leaf.state.second
      = b * 4 ^ d + pairKey d leaf.blade leaf.state.second := by
  obtain ⟨hnode, hblade, hsecond⟩ := h.of_branch hs
  obtain ⟨h₁, h₂⟩ := hnode.testBit_leaf hleaf le_rfl
  rw [hblade, testBit_putVector_self _ h.decided_first.testBit_self] at h₁
  rw [hsecond, testBit_putVector_self _ h.decided_second.testBit_self] at h₂
  rw [pairKey, h₁, h₂, branch_eq hb]

/-- The leaves below a node ascend. -/
theorem PairNode.pairwise_leavesBelow {d : Nat} {node : Node (PairState α)}
    (h : PairNode k sig first second d node) :
    (leavesBelow 4 (pairBranch k sig) d node).Pairwise fun u v =>
      pairKey d u.blade u.state.second < pairKey d v.blade v.state.second := by
  induction d generalizing node with
  | zero => exact List.pairwise_singleton _ _
  | succ d ih =>
      rw [leavesBelow, List.pairwise_flatMap]
      constructor
      · -- below one child the first digits are equal
        intro child hchild
        obtain ⟨b, hb, s, hs, rfl⟩ := mem_childrenOf.mp hchild
        refine List.Pairwise.imp_of_mem ?_ (ih (h.of_branch hs).1)
        intro u v hu hv huv
        rw [h.pairKey_leaf hs hb hu, h.pairKey_leaf hs hb hv]
        omega
      · -- between two children the first digit decides
        rw [childrenOf, List.pairwise_filterMap]
        refine List.Pairwise.imp_of_mem ?_ List.pairwise_lt_range
        intro b b' hb hb' hlt child hchild child' hchild' u hu v hv
        obtain ⟨s, hs, rfl⟩ := Option.map_eq_some_iff.mp hchild
        obtain ⟨s', hs', rfl⟩ := Option.map_eq_some_iff.mp hchild'
        rw [h.pairKey_leaf hs (List.mem_range.mp hb) hu,
          h.pairKey_leaf hs' (List.mem_range.mp hb') hv]
        calc b * 4 ^ d + pairKey d u.blade u.state.second
            < b * 4 ^ d + 4 ^ d := Nat.add_lt_add_left (pairKey_lt _ _ _) _
          _ = (b + 1) * 4 ^ d := (Nat.succ_mul b (4 ^ d)).symm
          _ ≤ b' * 4 ^ d := Nat.mul_le_mul_right _ hlt
          _ ≤ b' * 4 ^ d + pairKey d v.blade v.state.second := Nat.le_add_right _ _

/-- **The pairs come in ascending order of the interleaved bits of their blades.** -/
theorem pairwise_pairsOf (k : Product) (sig : Signature) (a b : Multivector α) :
    (pairsOf k sig a b).Pairwise fun p q =>
      pairKey sig.dimension p.first.1 p.second.1 < pairKey sig.dimension q.first.1 q.second.1 := by
  rw [pairsOf, List.pairwise_filterMap]
  refine List.Pairwise.imp_of_mem ?_
    (pairNode_root k sig sig.dimension a b).pairwise_leavesBelow
  intro u v hu hv hlt p hp q hq
  obtain ⟨⟨-, hpfirst⟩, -, hpsecond⟩ := mem_of_leafPair (pairNode_of_mem_pairLeaves hu) hp
  obtain ⟨⟨-, hqfirst⟩, -, hqsecond⟩ := mem_of_leafPair (pairNode_of_mem_pairLeaves hv) hq
  rw [hpfirst, hpsecond, hqfirst, hqsecond]
  exact hlt

end Order

/-! ## All pairs with a product -/

/-- The pairs of a term of one list and a term of another whose product is not zero, with its
    sign. -/
def signedPairs (k : Product) (sig : Signature) (s t : List (Nat × α)) : List (SignedPair α) :=
  ((s ×ˢ t).map fun p => ⟨p.1, p.2, sign k sig p.1.1 p.2.1⟩).filter fun p => p.sign != 0

theorem mem_signedPairs {k : Product} {sig : Signature} {s t : List (Nat × α)} {p : SignedPair α} :
    p ∈ signedPairs k sig s t ↔
      p.first ∈ s ∧ p.second ∈ t ∧ p.sign = sign k sig p.first.1 p.second.1 ∧ p.sign ≠ 0 := by
  rw [signedPairs, List.mem_filter, List.mem_map, bne_iff_ne]
  constructor
  · rintro ⟨⟨⟨u, v⟩, huv, rfl⟩, hne⟩
    obtain ⟨hu, hv⟩ := List.pair_mem_product.mp huv
    exact ⟨hu, hv, rfl, hne⟩
  · rintro ⟨hu, hv, hsign, hne⟩
    refine ⟨⟨(p.first, p.second), List.pair_mem_product.mpr ⟨hu, hv⟩, ?_⟩, hne⟩
    rw [← hsign]

theorem nodup_signedPairs (k : Product) (sig : Signature) {s t : List (Nat × α)} (hs : s.Nodup)
    (ht : t.Nodup) : (signedPairs k sig s t).Nodup := by
  refine ((hs.product ht).map ?_).filter _
  rintro ⟨u, v⟩ ⟨u', v'⟩ h
  cases h
  rfl

/-- For multivectors of the algebra the walk hands over every pair with a product once. -/
theorem perm_pairsOf (k : Product) {sig : Signature} {a b : Multivector α}
    (ha : a.InRange sig.dimension) (hb : b.InRange sig.dimension) :
    (pairsOf k sig a b).Perm (signedPairs k sig a.terms b.terms) := by
  have hn := sig.dimension_le
  have hnodup : (pairsOf k sig a b).Nodup :=
    (pairwise_pairsOf k sig a b).imp fun hlt heq => by
      rw [heq] at hlt
      exact lt_irrefl _ hlt
  refine (List.perm_ext_iff_of_nodup hnodup (nodup_signedPairs k sig
    (Multivector.nodup_terms hn ha).of_map (Multivector.nodup_terms hn hb).of_map)).mpr fun p => ?_
  rw [mem_pairsOf, mem_signedPairs, mem_rootTerms hn ha, mem_rootTerms hn hb]

/-- **The walk over pairs meets every pair of terms whose product is not zero, each once, with the
    sign of the product, and in ascending order of the interleaved bits of the two blades.** What
    the pairs are folded into does not matter, and nothing is asked of the coefficients. -/
theorem foldPairs_exact (k : Product) (sig : Signature) (a b : Multivector α)
    (ha : a.validate sig.dimension = .ok ()) (hb : b.validate sig.dimension = .ok ()) :
    ∃ calls : List (SignedPair α),
      (∀ {ω : Type} (f : ω → SignedPair α → ω) (init : ω),
        (foldPairs k sig a b f init).1 = calls.foldl f init) ∧
      calls.Perm (signedPairs k sig a.terms b.terms) ∧
      calls.Pairwise fun p q =>
        pairKey sig.dimension p.first.1 p.second.1 < pairKey sig.dimension q.first.1 q.second.1 :=
  ⟨pairsOf k sig a b, foldPairs_eq_foldl k sig a b,
    perm_pairsOf k ((Multivector.validate_eq_ok_iff _ a).mp ha).2
      ((Multivector.validate_eq_ok_iff _ b).mp hb).2,
    pairwise_pairsOf k sig a b⟩

/-- Of four pairs one shares the null vector. -/
theorem foldPairs_exact_mixed :
    ∃ calls : List (SignedPair String),
      (∀ {ω : Type} (f : ω → SignedPair String → ω) (init : ω),
        (foldPairs .geometric .mixed (.ofBlades [(1, "a"), (6, "b")])
          (.ofBlades [(3, "c"), (4, "d")]) f init).1 = calls.foldl f init) ∧
      calls.Perm [⟨(1, "a"), (3, "c"), 1⟩, ⟨(1, "a"), (4, "d"), 1⟩, ⟨(6, "b"), (3, "c"), 1⟩] ∧
      calls.Pairwise fun p q =>
        pairKey 3 p.first.1 p.second.1 < pairKey 3 q.first.1 q.second.1 := by
  obtain ⟨calls, hfold, hperm, hordered⟩ := foldPairs_exact .geometric .mixed
    (.ofBlades [(1, "a"), (6, "b")]) (.ofBlades [(3, "c"), (4, "d")]) (by cbv) (by cbv)
  refine ⟨calls, hfold, ?_, hordered⟩
  have hpairs : signedPairs .geometric .mixed
      (Multivector.ofBlades [(1, "a"), (6, "b")]).terms
      (Multivector.ofBlades [(3, "c"), (4, "d")]).terms
        = [⟨(1, "a"), (3, "c"), 1⟩, ⟨(1, "a"), (4, "d"), 1⟩, ⟨(6, "b"), (3, "c"), 1⟩] := by cbv
  rwa [hpairs] at hperm

end BladeTree

end GeometricAlgebra

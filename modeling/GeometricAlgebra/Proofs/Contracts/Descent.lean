import GeometricAlgebra.Proofs.BladeTree.Moments
import GeometricAlgebra.Proofs.BladeTree.PairNode
import GeometricAlgebra.Proofs.Contracts.Ranks

set_option autoImplicit false

/-! # Contracts on the way down the tree

A walk can be done without handing terms down the tree: the terms below a node are those between two
keys, so a query of all terms tells whether there are any. Each step of such a walk shifts a word by
the depth of the node and queries from the first to the last blade below the child, and each of
these calls has a guard.

A node of the guarded walk knows less than its plain counterpart, so the proof goes along a
projection `f` of the states of nodes: **where guarded decisions agree with plain ones on projected
nodes, the walks agree**, visit by visit and so in what they count (`walker_eq`). What makes them
agree is that the list a plain node carries is what the query finds (`Follows`). -/

namespace GeometricAlgebra

namespace Guarded

open Blade BladeTree

variable {α β ω σ τ : Type}

/-! ## Queries and entries -/

/-- Whether there is a key from the first to the last. -/
def hasKey (index : Terms α) (first last : Nat) : Option Bool :=
  if first ≤ last then some (index.keys.any fun b => decide (first ≤ b ∧ b ≤ last)) else none

/-- The entry of a list at a position within its length. -/
def entry (l : List β) (i : Nat) : Option β := l[i]?

/-- The child of a blade with or without the vector that the node decides. -/
def childBlade (node : Node σ) (b : Nat) (taken : Bool) : Option Nat :=
  if taken then do return b ||| (← bit node.childVector) else some b

/-- The first and the last blade below that child. -/
def childRange (node : Node σ) (b : Nat) (taken : Bool) : Option (Nat × Nat) := do
  let first ← childBlade node b taken
  return (first, first ||| (← firstVectors node.childVector))

/-- What basis vector `i` squares to, from the words of the signature. -/
def square (sig : Signature) (i : Nat) : Option Square := do
  let b ← bit i
  return if sig.null &&& b ≠ 0 then .zero
    else if sig.negative &&& b ≠ 0 then .negative else .positive

theorem square_eq (sig : Signature) {i : Nat} (hi : i < maxDimension) :
    square sig i = some (sig.square i) := by
  have hbit : ∀ m : Nat, m &&& ofVector i ≠ 0 ↔ m.testBit i = true := by
    intro m
    rw [Ne, ← grade_eq_zero_iff, grade_eq_card, Finset.card_eq_zero, vectorSet_and,
      vectorSet_ofVector, ← mem_vectorSet]
    by_cases h : i ∈ vectorSet m
    · simp [h]
    · simp [h]
  simp only [square, bit_eq hi, Option.bind_eq_bind, Option.bind_some, hbit]
  rfl

theorem childBlade_eq {node : Node σ} {d : Nat} (hnode : node.depth = d + 1)
    (hd : d < maxDimension) (b : Nat) (taken : Bool) :
    childBlade node b taken = some (putVector b d taken) := by
  cases taken with
  | false => rfl
  | true =>
      rw [childBlade, childVector_eq hnode, bit_eq hd]
      rfl

theorem childRange_eq {node : Node σ} {d : Nat} (hnode : node.depth = d + 1)
    (hd : d < maxDimension) (b : Nat) (taken : Bool) :
    childRange node b taken
      = some (putVector b d taken, putVector b d taken ||| Blade.firstVectors d) := by
  rw [childRange, childBlade_eq hnode hd, childVector_eq hnode, firstVectors_eq]
  rfl

/-! ## The terms below a node -/

/-- The blades from `b` to the last blade below it are those that agree with it on the vectors from
    `d` up. -/
theorem range_iff {d b c : Nat} (hd : d ≤ maxDimension) (hb : Decided d b) :
    (b ≤ c ∧ c ≤ b ||| Blade.firstVectors d) ↔ ∀ i, d ≤ i → c.testBit i = b.testBit i := by
  have hpow := Nat.two_pow_pos d
  have hlow : b / 2 ^ d * 2 ^ d = b := by
    refine Nat.div_mul_cancel (Nat.dvd_of_mod_eq_zero (Nat.eq_of_testBit_eq fun i => ?_))
    rw [Nat.testBit_mod_two_pow, Nat.zero_testBit]
    by_cases hi : i < d
    · rw [hb i hi, Bool.and_false]
    · rw [decide_eq_false hi, Bool.false_and]
  have hlast : b ||| Blade.firstVectors d = b + (2 ^ d - 1) := by
    have hor := Nat.two_pow_add_eq_or_of_lt (Nat.sub_lt hpow Nat.one_pos) (b / 2 ^ d)
    rw [Nat.mul_comm, hlow] at hor
    rw [Blade.firstVectors, min_eq_left hd, Nat.one_shiftLeft, hor]
  have hdiv : (∀ i, d ≤ i → c.testBit i = b.testBit i) ↔ c / 2 ^ d = b / 2 ^ d := by
    constructor
    · intro h
      refine Nat.eq_of_testBit_eq fun i => ?_
      rw [Nat.testBit_div_two_pow, Nat.testBit_div_two_pow, h _ (Nat.le_add_left d i)]
    · intro h i hi
      rw [← Nat.sub_add_cancel hi, ← Nat.testBit_div_two_pow, ← Nat.testBit_div_two_pow, h]
  rw [hdiv, hlast, Nat.div_eq_iff hpow, hlow, Nat.add_sub_assoc hpow]

/-- The list holds, each once, the terms that agree with a blade on the vectors decided. -/
structure Follows (index : Terms α) (d b : Nat) (l : List (Nat × α)) : Prop where
  decided : Decided d b
  below : Below index.toList d b l
  nodup : l.Nodup

section Follows

variable {index : Terms α} {d b : Nat} {l : List (Nat × α)}

theorem Follows.child (h : Follows index (d + 1) b l) (taken : Bool) :
    Follows index d (putVector b d taken) (l.filter fun t => t.1.testBit d == taken) where
  decided := h.decided.putVector taken
  below := h.below.filter taken h.decided.testBit_self
  nodup := h.nodup.filter _

/-- **The list is what a query between the first and the last blade finds.** -/
theorem Follows.hasKey_eq (h : Follows index d b l) (hd : d ≤ maxDimension) :
    hasKey index b (b ||| Blade.firstVectors d) = some (!l.isEmpty) := by
  rw [hasKey, if_pos Nat.left_le_or, Option.some.injEq, Bool.eq_iff_iff, List.any_eq_true,
    Bool.not_eq_true', List.isEmpty_eq_false_iff_exists_mem]
  simp only [decide_eq_true_eq, range_iff hd h.decided]
  constructor
  · rintro ⟨c, hc, hagree⟩
    rw [← Std.ExtTreeMap.map_fst_toList_eq_keys] at hc
    obtain ⟨t, ht, rfl⟩ := List.mem_map.mp hc
    exact ⟨t, (h.below t).mpr ⟨ht, hagree⟩⟩
  · rintro ⟨t, ht⟩
    obtain ⟨hmem, hagree⟩ := (h.below t).mp ht
    exact ⟨t.1, Std.ExtTreeMap.mem_keys.mpr (Terms.mem_of_mem_toList hmem), hagree⟩

/-- At a leaf it is what a lookup finds. -/
theorem Follows.eq_lookup (h : Follows index 0 b l) :
    l = (index[b]?.map fun v => (b, v)).toList := by
  have hmem : ∀ t, t ∈ l ↔ index[t.1]? = some t.2 ∧ t.1 = b := fun t => by
    rw [below_zero_iff h.below, Std.ExtTreeMap.mem_toList_iff_getElem?_eq_some]
  cases hget : index[b]? with
  | none =>
      refine List.eq_nil_iff_forall_not_mem.mpr fun t ht => ?_
      obtain ⟨hsome, hb⟩ := (hmem t).mp ht
      rw [hb, hget] at hsome
      cases hsome
  | some v =>
      refine List.perm_singleton.mp
        ((List.perm_ext_iff_of_nodup h.nodup (List.nodup_singleton _)).mpr fun t => ?_)
      rw [hmem, List.mem_singleton, Prod.ext_iff, and_comm]
      refine and_congr_right fun hb => ?_
      rw [hb, hget, Option.some.injEq, eq_comm]

theorem follows_rootTerms (n : Nat) (mv : Multivector α) :
    Follows mv.toTerms n 0 (rootTerms n mv) where
  decided i _ := Nat.zero_testBit i
  below t := by
    rw [rootTerms, List.mem_filter, decide_eq_true_eq, Nat.one_shiftLeft]
    refine and_congr_right fun _ => ?_
    simp only [Nat.zero_testBit]
    exact ⟨fun hlt i hi => Nat.testBit_lt_two_pow
      (hlt.trans_le (Nat.pow_le_pow_right (by decide) hi)), Nat.lt_pow_two_of_testBit _⟩
  nodup := (nodup_map_fst_rootTerms n mv).of_map

end Follows

/-! ## Children -/

section Child

variable {node : Node σ} {d : Nat} (hdepth : node.depth = d + 1)

include hdepth

/-- A child has the terms of its half. -/
theorem Follows.childTerms {index : Terms α} {b : Nat} {l : List (Nat × α)}
    (h : Follows index (d + 1) b l) (taken : Bool) :
    Follows index d (putVector b d taken) (childTerms node taken l) := by
  rw [childTerms_eq hdepth]
  exact h.child taken

theorem hasKey_child {index : Terms α} {b : Nat} {l : List (Nat × α)} (hd : d < maxDimension)
    (h : Follows index (d + 1) b l) (taken : Bool) :
    hasKey index (putVector b d taken) (putVector b d taken ||| Blade.firstVectors d)
      = some (!(BladeTree.childTerms node taken l).isEmpty) :=
  (h.childTerms hdepth taken).hasKey_eq hd.le

end Child

/-! ## Guarded walks -/

section Walker

/-- The node as another walk knows it. -/
abbrev mapState (f : σ → τ) (node : Node σ) : Node τ := ⟨node.depth, node.blade, f node.state⟩

section MapState

variable (f : σ → τ) (node : Node σ)

@[simp] theorem mapState_childVector : (mapState f node).childVector = node.childVector := rfl

@[simp] theorem childBlade_mapState (b : Nat) (taken : Bool) :
    childBlade (mapState f node) b taken = childBlade node b taken := rfl

@[simp] theorem childRange_mapState (b : Nat) (taken : Bool) :
    childRange (mapState f node) b taken = childRange node b taken := rfl

end MapState

/-- A walker that decides on children with guards; an accepted child gets its blade. -/
def walker (branches : Nat) (decide : Node τ → Nat → Option (Option τ)) (leaf : ω → Node τ → ω) :
    Walker (Option ω) τ where
  branches
  descend acc node b :=
    let answer := do
      let acc ← acc
      let child ← decide node b
      if child.isSome then let _ ← childBlade node node.blade (b % 2 == 1)
      return (child, acc)
    match answer with
    | some (child, acc) => (child, some acc)
    | none => (none, none)
  leaf acc node := acc.map fun acc => leaf acc node

/-- What a guarded walk ends with, unless it has broken a contract. -/
def ofWalk (done : Option ω × Stats) : Option (ω × Stats) := do return (← done.1, done.2)

variable {w : Walker ω σ} {g : Node σ → Nat → Option σ} {f : σ → τ}
  {decide : Node τ → Nat → Option (Option τ)} {leaf : ω → Node τ → ω} {P : Nat → Node σ → Prop}

/-- The walk as another one knows it that has not broken a contract. -/
def mapWalk (f : σ → τ) (walk : Walk ω σ) : Walk (Option ω) τ :=
  ⟨walk.stack.map (mapState f), walk.stats, some walk.state⟩

variable (leaf) in
/-- The decision on a child is the same, and no contract is broken for it. -/
theorem decideChild_walker (hw : ∀ s node b, w.descend s node b = (g node b, s)) {node : Node σ}
    {d b : Nat} (hd : d < maxDimension) (hdepth : node.depth = d + 1)
    (hdecide : decide (mapState f node) b = some ((g node b).map f)) (walk : Walk ω σ) :
    (mapWalk f walk).decideChild (walker w.branches decide leaf) (mapState f node) b
      = mapWalk f (walk.decideChild w node b) := by
  have hanswer : (walker w.branches decide leaf).descend (mapWalk f walk).state (mapState f node) b
      = ((g node b).map f, some walk.state) := by
    simp only [walker, mapWalk, Option.bind_eq_bind, Option.bind_some, hdecide,
      childBlade_mapState, childBlade_eq hdepth hd]
    split_ifs <;> rfl
  simp only [Walk.decideChild, hanswer, hw]
  cases g node b <;> rfl

variable (leaf) in
theorem expand_walker (hw : ∀ s node b, w.descend s node b = (g node b, s)) {node : Node σ}
    {d : Nat} (hd : d < maxDimension) (hdepth : node.depth = d + 1)
    (hdecide : ∀ b < w.branches, decide (mapState f node) b = some ((g node b).map f))
    {b : Nat} (hb : b ≤ w.branches) (walk : Walk ω σ) :
    (mapWalk f walk).expand (walker w.branches decide leaf) (mapState f node) b
      = mapWalk f (walk.expand w node b) := by
  induction b generalizing walk with
  | zero => rfl
  | succ b ih =>
      rw [Walk.expand_succ, Walk.expand_succ,
        decideChild_walker leaf hw hd hdepth (hdecide b hb), ih (Nat.le_of_succ_le hb)]

section Run

variable (hw : ∀ s node b, w.descend s node b = (g node b, s))
  (hdepth : ∀ d node, P d node → node.depth = d)
  (hchild : ∀ d node b s, P (d + 1) node → b < w.branches → g node b = some s →
    P d (childNode node b s))
  (hdecide : ∀ d node b, d < maxDimension → P (d + 1) node → b < w.branches →
    decide (mapState f node) b = some ((g node b).map f))
  (hleaf : ∀ node acc, P 0 node → leaf acc (mapState f node) = w.leaf acc node)

include hw hdepth hdecide hleaf in
/-- A guarded visit of a node does what the plain one does. -/
theorem visit_walker {node : Node σ} {d : Nat} (hd : d ≤ maxDimension) (hnode : P d node)
    (walk : Walk ω σ) :
    (mapWalk f walk).visit (walker w.branches decide leaf) (mapState f node)
      = mapWalk f (walk.visit w node) := by
  have hdnode := hdepth d node hnode
  rw [Walk.visit, Walk.visit, Node.isLeaf, Node.isLeaf, hdnode]
  cases d with
  | zero =>
      simp only [beq_self_eq_true, if_true, mapWalk, walker, Option.map_some, hleaf node _ hnode]
  | succ d =>
      simp only [Nat.add_one_ne_zero, beq_iff_eq, if_false]
      exact expand_walker leaf hw hd hdnode (fun b => hdecide d node b hd hnode) le_rfl
        { walk with stats := { walk.stats with visited := walk.stats.visited + 1 } }

include hw hdepth hchild in
/-- The children of a node are as the walk needs them. -/
theorem forall_mem_stack_visit {node : Node σ} {d : Nat} (hnode : P d node) {walk : Walk ω σ}
    (hstack : ∀ u ∈ walk.stack, ∃ k ≤ maxDimension, P k u) (hd : d ≤ maxDimension) :
    ∀ u ∈ (walk.visit w node).stack, ∃ k ≤ maxDimension, P k u := by
  have hdnode := hdepth d node hnode
  rw [Walk.visit, Node.isLeaf, hdnode]
  cases d with
  | zero => exact hstack
  | succ d =>
      simp only [Nat.add_one_ne_zero, beq_iff_eq, if_false]
      rw [(Walk.expand_stack w node _ _).1, offspring_of_pure hw]
      intro u hu
      rcases List.mem_append.mp hu with hu | hu
      · obtain ⟨b, hb, s, hs, rfl⟩ := mem_childrenOf.mp hu
        exact ⟨d, Nat.le_of_succ_le hd, hchild d node b s hnode hb hs⟩
      · exact hstack u hu

include hw hdepth hchild hdecide hleaf in
/-- So does the rest of a walk, whatever waits on the stack. -/
theorem finish_walker (walk : Walk ω σ) (hstack : ∀ u ∈ walk.stack, ∃ k ≤ maxDimension, P k u) :
    (mapWalk f walk).finish (walker w.branches decide leaf) = mapWalk f (walk.finish w) := by
  fun_induction Walk.finish w walk with
  | case1 walk h =>
      refine Walk.finish_of_nil _ ?_
      rw [mapWalk, h, List.map_nil]
  | case2 walk node rest h ih =>
      rw [h] at hstack
      obtain ⟨⟨d, hd, hnode⟩, hrest⟩ := List.forall_mem_cons.mp hstack
      have hvisit := visit_walker hw hdepth hdecide hleaf hd hnode { walk with stack := rest }
      have htop : (mapWalk f walk).stack = mapState f node :: rest.map (mapState f) := by
        rw [mapWalk, h, List.map_cons]
      rw [Walk.finish_of_cons _ htop,
        ← ih (forall_mem_stack_visit hw hdepth hchild hnode hrest hd), ← hvisit]
      rfl

include hw hdepth hchild hdecide hleaf in
/-- **Where guarded decisions and leaves agree with plain ones, no contract is broken on the walk,
    it ends as the plain one does, and both count the same nodes.** `P` is what the plain walk keeps
    at its nodes. -/
theorem walker_eq {n : Nat} (hn : n ≤ maxDimension) (root : σ) (hroot : P n ⟨n, 0, root⟩)
    (acc : ω) :
    ofWalk (walk n (walker w.branches decide leaf) (f root) (some acc))
      = some (walk n w root acc) := by
  have hfinish := finish_walker hw hdepth hchild hdecide hleaf (Walk.start n root acc)
    (by simpa [Walk.start, Stack.root] using ⟨n, hn, hroot⟩)
  exact congrArg (fun done : Walk (Option ω) τ => ofWalk (done.state, done.stats)) hfinish

end Run

end Walker

end Guarded

end GeometricAlgebra

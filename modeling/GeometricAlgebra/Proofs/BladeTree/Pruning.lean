import GeometricAlgebra.Proofs.BladeTree.Grades
import GeometricAlgebra.Proofs.BladeTree.Images
import GeometricAlgebra.Proofs.BladeTree.Pairs
import GeometricAlgebra.Proofs.Multivector.Lookup

set_option autoImplicit false

/-! # A walk is as long as its terms are many

The tree has `2 ^ n` leaves, but a walker that leaves out the subtrees without terms visits few of
its nodes. Give every node a weight, such as the number of terms below it. Where an accepted child
weighs at least one, and the accepted children of a node together weigh no more than the node
(`SharesOut`), no level of the tree has more accepted nodes than the root weighs. So the walk visits
the root and at most that many nodes on each of the `n` levels below it.

The proof is by amortisation over the stack: a waiting node is worth one visit and its weight for
each level below it, and **a visit never raises what was visited plus what the stack is worth**
(`visited_visit_le`). The walks over grades and over images split the terms of a node among its
children, and the walk over pairs splits the pairs. Walks that ask for the keys below a node,
instead of handing its terms down, visit the same nodes (`Guarded.walker_eq`). -/

namespace GeometricAlgebra

namespace BladeTree

variable {ω σ : Type}

/-! ## Weights that are shared out -/

/-- Accepted children weigh at least one each, and together no more than their parent. -/
structure SharesOut (w : Walker ω σ) (weight : Node σ → Nat) : Prop where
  pos : ∀ s node, ∀ child ∈ (offspring w node w.branches s).1, 1 ≤ weight child
  sum_le : ∀ s node, ((offspring w node w.branches s).1.map weight).sum ≤ weight node

section Amortised

variable {w : Walker ω σ} {weight : Node σ → Nat}

/-- What the nodes on a stack are worth in visits. -/
def visitWorth (weight : Node σ → Nat) (stack : Stack σ) : Nat :=
  (stack.map fun node => 1 + node.depth * weight node).sum

/-- What the nodes on a stack are worth in leaves. -/
def leafWorth (weight : Node σ → Nat) (stack : Stack σ) : Nat := (stack.map weight).sum

theorem counts_expand (w : Walker ω σ) (node : Node σ) (b : Nat) (walk : Walk ω σ) :
    (walk.expand w node b).stats.visited = walk.stats.visited ∧
      (walk.expand w node b).stats.leaves = walk.stats.leaves := by
  induction b generalizing walk with
  | zero => exact ⟨rfl, rfl⟩
  | succ b ih =>
      rw [Walk.expand]
      split
      · exact ih _
      · exact ih _

/-- A node is worth its own visit and its children. -/
theorem visitWorth_offspring_le (hw : SharesOut w weight) {node : Node σ} {d : Nat}
    (hd : node.depth = d + 1) (s : ω) :
    visitWorth weight (offspring w node w.branches s).1 ≤ (d + 1) * weight node := by
  have hchild : ∀ child ∈ (offspring w node w.branches s).1,
      1 + child.depth * weight child ≤ (d + 1) * weight child := by
    intro child hchild
    rw [depth_of_mem_offspring hchild, hd, Nat.add_sub_cancel, Nat.succ_mul, Nat.add_comm]
    exact Nat.add_le_add_left (hw.pos s node child hchild) _
  calc visitWorth weight (offspring w node w.branches s).1
      ≤ ((offspring w node w.branches s).1.map fun child => (d + 1) * weight child).sum :=
        List.sum_le_sum hchild
    _ = (d + 1) * ((offspring w node w.branches s).1.map weight).sum := by
        rw [List.sum_map_mul_left]
    _ ≤ (d + 1) * weight node := Nat.mul_le_mul_left _ (hw.sum_le s node)

/-- **A visit never raises what was visited plus what the stack is worth.** -/
theorem visited_visit_le (hw : SharesOut w weight) (node : Node σ) (walk : Walk ω σ) :
    (walk.visit w node).stats.visited + visitWorth weight (walk.visit w node).stack
      ≤ walk.stats.visited + visitWorth weight (node :: walk.stack) := by
  rw [Walk.visit, Node.isLeaf]
  cases hd : node.depth with
  | zero =>
      simp only [beq_self_eq_true, if_true, visitWorth, List.map_cons, List.sum_cons, hd]
      omega
  | succ d =>
      simp only [Nat.add_one_ne_zero, beq_iff_eq, if_false]
      rw [(counts_expand w node _ _).1, (Walk.expand_stack w node _ _).1]
      have hworth := visitWorth_offspring_le hw hd walk.state
      simp only [visitWorth, List.map_append, List.sum_append, List.map_cons, List.sum_cons, hd]
        at hworth ⊢
      omega

theorem visited_finish_le (hw : SharesOut w weight) (walk : Walk ω σ) :
    (walk.finish w).stats.visited ≤ walk.stats.visited + visitWorth weight walk.stack := by
  fun_induction Walk.finish w walk with
  | case1 walk h => exact Nat.le_add_right _ _
  | case2 walk node rest h ih =>
      rw [h]
      exact ih.trans (visited_visit_le hw node { walk with stack := rest })

/-- Every leaf that waits on the stack weighs at least one. -/
def LeavesWeigh (weight : Node σ → Nat) (stack : Stack σ) : Prop :=
  ∀ node ∈ stack, node.depth = 0 → 1 ≤ weight node

theorem leaves_visit_le (hw : SharesOut w weight) (node : Node σ) (walk : Walk ω σ)
    (h : LeavesWeigh weight (node :: walk.stack)) :
    (walk.visit w node).stats.leaves + leafWorth weight (walk.visit w node).stack
        ≤ walk.stats.leaves + leafWorth weight (node :: walk.stack) ∧
      LeavesWeigh weight (walk.visit w node).stack := by
  have hrest : LeavesWeigh weight walk.stack := fun u hu => h u (List.mem_cons_of_mem node hu)
  rw [Walk.visit, Node.isLeaf]
  cases hd : node.depth with
  | zero =>
      have hleaf := h node List.mem_cons_self hd
      refine ⟨?_, hrest⟩
      simp only [beq_self_eq_true, if_true, leafWorth, List.map_cons, List.sum_cons]
      omega
  | succ d =>
      simp only [Nat.add_one_ne_zero, beq_iff_eq, if_false]
      rw [(counts_expand w node _ _).2, (Walk.expand_stack w node _ _).1]
      have hworth := hw.sum_le walk.state node
      constructor
      · simp only [leafWorth, List.map_append, List.sum_append, List.map_cons, List.sum_cons]
        omega
      · intro u hu hzero
        rcases List.mem_append.mp hu with hu | hu
        · exact hw.pos walk.state node u hu
        · exact hrest u hu hzero

theorem leaves_finish_le (hw : SharesOut w weight) (walk : Walk ω σ)
    (h : LeavesWeigh weight walk.stack) :
    (walk.finish w).stats.leaves ≤ walk.stats.leaves + leafWorth weight walk.stack := by
  fun_induction Walk.finish w walk with
  | case1 walk _ => exact Nat.le_add_right _ _
  | case2 walk node rest hstack ih =>
      rw [hstack] at h ⊢
      obtain ⟨hle, hleaves⟩ := leaves_visit_le hw node { walk with stack := rest } h
      exact (ih hleaves).trans hle

/-! ## Whole walks -/

/-- At most `weight` nodes were visited on each of the `n` levels below the root, and at most as
    many leaves, unless the root itself is one. -/
structure Stats.Proportional (n weight : Nat) (stats : Stats) : Prop where
  visited_le : stats.visited ≤ 1 + n * weight
  leaves_le : 0 < n → stats.leaves ≤ weight

/-- **Weights that are shared out bound the walk by the weight of the root.** -/
theorem proportional_walk (hw : SharesOut w weight) {n m : Nat} {root : σ} (s : ω)
    (hroot : weight ⟨n, 0, root⟩ ≤ m) : (walk n w root s).2.Proportional n m := by
  constructor
  · have hvisited := visited_finish_le hw (Walk.start n root s)
    simp only [Walk.start, Stack.root, visitWorth, List.map_singleton, List.sum_singleton,
      Nat.zero_add] at hvisited
    exact hvisited.trans (Nat.add_le_add_left (Nat.mul_le_mul_left n hroot) 1)
  · intro hn
    have hinner : LeavesWeigh weight (Stack.root n root) := by
      intro node hnode hzero
      rw [List.mem_singleton.mp hnode] at hzero
      exact absurd hzero hn.ne'
    have hleaves := leaves_finish_le hw (Walk.start n root s) hinner
    simp only [Walk.start, Stack.root, leafWorth, List.map_singleton, List.sum_singleton,
      Nat.zero_add] at hleaves
    exact hleaves.trans hroot

end Amortised

/-! ## Walkers that decide without their state -/

/-- It is enough that the branches of a node have shares that sum up to its weight, and that a child
    weighs what its branch has, if that is not nothing. -/
theorem SharesOut.of_pure {w : Walker ω σ} {g : Node σ → Nat → Option σ} {weight : Node σ → Nat}
    (hw : ∀ s node b, w.descend s node b = (g node b, s)) (share : Node σ → Nat → Nat)
    (hpos : ∀ node b s, g node b = some s → 1 ≤ share node b)
    (hshare : ∀ node b s, g node b = some s → weight (childNode node b s) = share node b)
    (hsum : ∀ node, ((List.range w.branches).map (share node)).sum ≤ weight node) :
    SharesOut w weight where
  pos s node child hchild := by
    rw [offspring_of_pure hw] at hchild
    obtain ⟨b, -, t, ht, rfl⟩ := mem_childrenOf.mp hchild
    exact (hshare node b t ht).symm ▸ hpos node b t ht
  sum_le s node := by
    refine le_trans ?_ (hsum node)
    rw [offspring_of_pure hw, childrenOf]
    simp only
    induction List.range w.branches with
    | nil => exact le_rfl
    | cons b rest ih =>
        rw [List.filterMap_cons, List.map_cons, List.sum_cons]
        cases ht : g node b with
        | none => exact ih.trans (Nat.le_add_left _ _)
        | some t =>
            simp only [Option.map_some, List.map_cons, List.sum_cons, hshare node b t ht]
            exact Nat.add_le_add_left ih _

/-! ## The terms of a node -/

section Terms

variable {α : Type}

/-- The terms of a node are shared between the child without its vector and the child with it. -/
theorem length_childTerms (node : Node σ) (terms : List (Nat × α)) :
    (childTerms node false terms).length + (childTerms node true terms).length = terms.length := by
  induction terms with
  | nil => rfl
  | cons t rest ih =>
      simp only [childTerms, List.filter_cons] at ih ⊢
      cases t.1.testBit node.childVector with
      | false => simp [← ih]; omega
      | true => simp [← ih]; omega

/-- The root has no more terms than the multivector. -/
theorem length_rootTerms_le (n : Nat) (mv : Multivector α) : (rootTerms n mv).length ≤ mv.size := by
  calc (rootTerms n mv).length ≤ mv.toTerms.toList.length := List.length_filter_le _ _
    _ = mv.toTerms.size := Std.ExtTreeMap.length_toList
    _ ≤ mv.terms.length := Std.ExtTreeMap.size_ofList_le
    _ = mv.size := mv.size_eq_length_terms.symm

end Terms

/-! ## The three walks -/

section Walks

variable {α : Type}

theorem sharesOut_gradeWalker (mask : Nat) :
    SharesOut (gradeWalker α mask) fun node => node.state.length := by
  refine SharesOut.of_pure (descend_gradeWalker mask)
    (fun node b => (childTerms node (b % 2 == 1) node.state).length) ?_ ?_ ?_
  · intro node b s hs
    obtain ⟨rfl, hne⟩ := gradeBranch_cases hs
    exact List.length_pos_iff.mpr hne
  · intro node b s hs
    rw [childNode, (gradeBranch_cases hs).1]
  · intro node
    exact (length_childTerms node node.state).le

theorem sharesOut_imageWalker (S : Scalars α) (images : List (Terms α)) :
    SharesOut (imageWalker S images) fun node => node.state.terms.length := by
  refine SharesOut.of_pure (descend_imageWalker S images)
    (fun node b => (childTerms node (b % 2 == 1) node.state.terms).length) ?_ ?_ ?_
  · intro node b s hs
    obtain ⟨hterms, hne, -⟩ := imageBranch_cases hs
    rw [← hterms]
    exact List.length_pos_iff.mpr hne
  · intro node b s hs
    rw [childNode, (imageBranch_cases hs).1]
  · intro node
    exact (length_childTerms node node.state.terms).le

theorem sharesOut_pairWalker (k : Product) (sig : Signature) (f : ω → SignedPair α → ω) :
    SharesOut (pairWalker k sig f)
      fun node => node.state.firstTerms.length * node.state.secondTerms.length := by
  refine SharesOut.of_pure (g := pairBranch k sig) (fun _ _ _ => rfl)
    (fun node b => (childTerms node (b % 2 == 1) node.state.firstTerms).length
      * (childTerms node (b / 2 % 2 == 1) node.state.secondTerms).length) ?_ ?_ ?_
  · intro node b s hs
    obtain ⟨-, hfirst, hsecond⟩ := descendPair_cases hs
    exact Nat.mul_pos (List.length_pos_iff.mpr hfirst) (List.length_pos_iff.mpr hsecond)
  · intro node b s hs
    rw [childNode, (descendPair_cases hs).1]
    rfl
  · intro node
    -- the four branches are the four products of a half and a half
    have hfirst := length_childTerms node node.state.firstTerms
    have hsecond := length_childTerms node node.state.secondTerms
    rw [← hfirst, ← hsecond, Nat.add_mul, Nat.mul_add, Nat.mul_add]
    exact le_of_eq (by simp [pairWalker, List.range_succ]; ring)

theorem proportional_termsOfGrades (n : Nat) (grades : List Nat) (mv : Multivector α) :
    (termsOfGrades n grades mv).2.Proportional n mv.size :=
  proportional_walk (sharesOut_gradeWalker (gradeMask grades)) [] (length_rootTerms_le n mv)

theorem proportional_sumOfImages (S : Scalars α) (images : List (Terms α)) (mv : Multivector α) :
    (sumOfImages S images mv).2.Proportional images.length mv.size :=
  proportional_walk (sharesOut_imageWalker S images) ∅ (length_rootTerms_le images.length mv)

theorem proportional_foldPairs (k : Product) (sig : Signature) (a b : Multivector α)
    (f : ω → SignedPair α → ω) (init : ω) :
    (foldPairs k sig a b f init).2.Proportional sig.dimension (a.size * b.size) :=
  proportional_walk (sharesOut_pairWalker k sig f) init
    (Nat.mul_le_mul (length_rootTerms_le _ a) (length_rootTerms_le _ b))

/-- **The walks are proportional to the terms they look for.** Over grades and over images a walk
    visits, besides the root, at most as many nodes on each level as the multivector has terms; over
    pairs, as there are pairs of a term of one multivector and a term of the other. Unless the root
    is a leaf, there are at most that many leaves. Nothing is asked of the scalars, nor of the
    terms: those outside the tree cost nothing. -/
theorem stats_proportional :
    (∀ (n : Nat) (grades : List Nat) (mv : Multivector α),
      (termsOfGrades n grades mv).2.Proportional n mv.size) ∧
    (∀ (S : Scalars α) (images : List (Terms α)) (mv : Multivector α),
      (sumOfImages S images mv).2.Proportional images.length mv.size) ∧
    ∀ (k : Product) (sig : Signature) (a b : Multivector α) (f : ω → SignedPair α → ω) (init : ω),
      (foldPairs k sig a b f init).2.Proportional sig.dimension (a.size * b.size) :=
  ⟨proportional_termsOfGrades, proportional_sumOfImages, proportional_foldPairs⟩

/-- Two of the `32` blades of a five-dimensional algebra, on different sides of the root: both
    bounds are attained. -/
theorem stats_proportional_two_terms :
    let mv : Multivector Int := .sparse ((∅ : Terms Int).insert 3 1 |>.insert 20 1)
    let stats := (termsOfGrades 5 [2] mv).2
    stats.Proportional 5 mv.size ∧ 0 < 5 ∧ stats.leaves ≤ mv.size ∧
      stats.visited = 1 + 5 * mv.size ∧ stats.leaves = mv.size := by
  refine ⟨(stats_proportional (ω := Unit)).1 5 [2] _, by decide, ?_, ?_, ?_⟩
  · exact ((stats_proportional (ω := Unit)).1 5 [2] _).leaves_le (by decide)
  · cbv
  · cbv

end Walks

end BladeTree

end GeometricAlgebra

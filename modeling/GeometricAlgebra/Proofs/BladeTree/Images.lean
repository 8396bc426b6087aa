import GeometricAlgebra.Proofs.BladeTree.Node
import GeometricAlgebra.Proofs.BladeTree.Walk
import GeometricAlgebra.Proofs.Multivector.Wedge

set_option autoImplicit false

/-! # What the walk over images adds up

The walk multiplies the images of vectors from the last one to the first, drops after every factor
the coefficients that count as zero, shares products between terms and leaves out what has become
empty. The image of a blade that comes out is `runningImage`. A node contributes, for every term
below it, the coefficient of the term times the image of the vectors still undecided, multiplied on
to the running product (`contribution`). This does not change when a vector is decided
(`runningImage_childTerms`), and what is left out contributes nothing (`imageBranch_eq_none`), so
the walk adds up the contribution of the root (`coeff_sumOfImages_cut`). The images can be sums of
blades of any grades.

Where only zero counts as zero, the order of the factors does not matter, and what is added up is
each term's coefficient times the image of its blade (`coeff_sumOfImages`). -/

namespace GeometricAlgebra

open Blade

variable {α : Type}

namespace BladeTree

/-- The child on a branch; the walk decides on it without looking at what it has added up. -/
def imageBranch (S : Scalars α) (images : List (Terms α)) (node : Node (ImageState α)) (b : Nat) :
    Option (ImageState α) :=
  ((imageWalker S images).descend ∅ node b).1

theorem descend_imageWalker (S : Scalars α) (images : List (Terms α)) (sum : Terms α)
    (node : Node (ImageState α)) (b : Nat) :
    (imageWalker S images).descend sum node b = (imageBranch S images node b, sum) := by
  simp only [imageBranch, imageWalker]
  split_ifs <;> rfl

/-- What an accepted child is: it has the terms of its half, and there are some, and a vector that
    it takes multiplies the running product by its image. -/
theorem imageBranch_cases {S : Scalars α} {images : List (Terms α)} {node : Node (ImageState α)}
    {b : Nat} {s : ImageState α} (hs : imageBranch S images node b = some s) :
    s.terms = childTerms node (b % 2 == 1) node.state.terms ∧ s.terms ≠ [] ∧
      s.running = if b % 2 == 1
        then Terms.wedge S (images.getD node.childVector ∅) node.state.running
        else node.state.running := by
  simp only [imageBranch, imageWalker] at hs
  split_ifs at hs with hterms htaken
  · cases hs
    exact ⟨rfl, fun hnil => hterms (List.isEmpty_iff.mpr hnil), (if_pos htaken).symm⟩
  · cases hs
    exact ⟨rfl, fun hnil => hterms (List.isEmpty_iff.mpr hnil), (if_neg htaken).symm⟩

/-- The leaves that the walk reaches. -/
def imageLeaves (S : Scalars α) (images : List (Terms α)) (mv : Multivector α) :
    List (Node (ImageState α)) :=
  leavesBelow 2 (imageBranch S images) images.length
    ⟨images.length, 0, ⟨(∅ : Terms α).insert 0 S.one, rootTerms images.length mv⟩⟩

theorem sumOfImages_eq_foldl (S : Scalars α) (images : List (Terms α)) (mv : Multivector α) :
    (sumOfImages S images mv).1
      = (imageLeaves S images mv).foldl (imageWalker S images).leaf ∅ :=
  walk_state_of_pure (descend_imageWalker S images) _ _ _

/-! ## The invariant -/

/-- What is known about a node at depth `d`: its terms are of different blades, which agree on the
    vectors already decided. -/
structure ImageNode (d : Nat) (node : Node (ImageState α)) : Prop where
  depth : node.depth = d
  nodup : (node.state.terms.map Prod.fst).Nodup
  agree : ∀ s ∈ node.state.terms, ∀ t ∈ node.state.terms, ∀ i, d ≤ i →
    s.1.testBit i = t.1.testBit i

section ImageNode

variable {d : Nat} {node : Node (ImageState α)}

theorem ImageNode.childVector (h : ImageNode (d + 1) node) : node.childVector = d :=
  childVector_eq h.depth

theorem ImageNode.testBit_of_mem (h : ImageNode (d + 1) node) {taken : Bool} {t : Nat × α}
    (ht : t ∈ childTerms node taken node.state.terms) : t.1.testBit d = taken := by
  rw [childTerms, List.mem_filter, h.childVector, beq_iff_eq] at ht
  exact ht.2

theorem ImageNode.child (h : ImageNode (d + 1) node) {b : Nat} {s : ImageState α}
    (hs : s.terms = childTerms node (b % 2 == 1) node.state.terms) :
    ImageNode d (childNode node b s) := by
  have hsub : ∀ {t}, t ∈ s.terms → t ∈ node.state.terms := by
    intro t ht
    rw [hs] at ht
    exact List.mem_of_mem_filter ht
  refine ⟨depth_childNode h.depth b s, ?_, ?_⟩
  · simp only [childNode, hs]
    exact h.nodup.sublist (List.filter_sublist.map Prod.fst)
  · intro t ht u hu i hi
    simp only [childNode] at ht hu
    rcases Nat.eq_or_lt_of_le hi with rfl | hlt
    · rw [h.testBit_of_mem (hs ▸ ht), h.testBit_of_mem (hs ▸ hu)]
    · exact h.agree t (hsub ht) u (hsub hu) i hlt

/-- At a leaf there is at most one term. -/
theorem ImageNode.terms_of_leaf (h : ImageNode 0 node) :
    node.state.terms = [] ∨ ∃ t, node.state.terms = [t] := by
  have hnodup := h.nodup
  have hagree := h.agree
  cases hterms : node.state.terms with
  | nil => exact Or.inl rfl
  | cons t rest =>
      cases rest with
      | nil => exact Or.inr ⟨t, rfl⟩
      | cons u rest =>
          rw [hterms] at hnodup hagree
          have heq : t.1 = u.1 := Nat.eq_of_testBit_eq fun i =>
            hagree t List.mem_cons_self u (List.mem_cons_of_mem t List.mem_cons_self) i
              (Nat.zero_le i)
          rw [List.map_cons, List.map_cons, heq] at hnodup
          exact absurd List.mem_cons_self (List.nodup_cons.mp hnodup).1

theorem imageNode_root (n : Nat) (mv : Multivector α) (running : Terms α) :
    ImageNode n ⟨n, 0, ⟨running, rootTerms n mv⟩⟩ where
  depth := rfl
  nodup := nodup_map_fst_rootTerms n mv
  agree s hs t ht i hi := by
    have hbelow := below_rootTerms n mv
    rw [((hbelow s).mp hs).2 i hi, ((hbelow t).mp ht).2 i hi]

end ImageNode

variable [CommRing α]

/-- The coefficients of the images of vectors. -/
def imageFamily (images : List (Terms α)) (i : Nat) : Nat → α := Terms.coeff (images.getD i ∅)

/-! ## Images with dropped coefficients -/

/-- The images of the vectors of a blade multiplied to a family from the left, from the last vector
    on, without the coefficients that count as zero after each of them. -/
def runningImage (S : Scalars α) (v : Nat → Nat → α) (b : Nat) (x : Nat → α) : Nat → α :=
  (vectors b).foldr (fun i x r => S.cut (outerProduct (v i) x r)) x

section RunningImage

variable {S : Scalars α} {v : Nat → Nat → α}

@[simp] theorem runningImage_zero (v : Nat → Nat → α) (x : Nat → α) :
    runningImage S v 0 x = x := by
  simp [runningImage, vectors, vectorsFrom]

theorem runningImage_add_top {c u : Nat} (hu : u < 2 ^ c) (x : Nat → α) :
    runningImage S v (2 ^ c + u) x
      = runningImage S v u fun r => S.cut (outerProduct (v c) x r) := by
  rw [runningImage, vectors_add_top hu, List.foldr_append, List.foldr_cons, List.foldr_nil,
    ← runningImage]

@[simp] theorem runningImage_of_zero (v : Nat → Nat → α) (b : Nat) :
    runningImage S v b 0 = 0 := by
  have hstep : ∀ i, (fun r => S.cut (outerProduct (v i) 0 r)) = 0 := by
    intro i
    funext r
    rw [outerProduct_zero_right, Pi.zero_apply, S.cut_zero]
  rw [runningImage]
  induction vectors b with
  | nil => rfl
  | cons i l ih => rw [List.foldr_cons, ih, hstep]

/-- Images of vectors add their grades. -/
theorem ofGrade_runningImage {m k : Nat} (hv : ∀ i, OfGrade m 1 (v i)) (b : Nat) {x : Nat → α}
    (hx : OfGrade m k x) : OfGrade m (grade b + k) (runningImage S v b x) := by
  induction b using topInduction generalizing k x with
  | zero => rwa [runningImage_zero, grade_eq_zero_iff.mpr rfl, Nat.zero_add]
  | top c u hu ih =>
      rw [runningImage_add_top hu, grade_add_top hu, Nat.add_assoc]
      refine ih fun r hr => ((hv c).outerProduct hx) r fun hzero => hr ?_
      rw [hzero, S.cut_zero]

/-- If nothing is dropped, it is the image of the blade that is multiplied. -/
theorem runningImage_eq (hE : S.IsExact) (b : Nat) (x : Nat → α) :
    runningImage S v b x = outerProduct (bladeImage v b) x := by
  induction b using topInduction generalizing x with
  | zero => rw [runningImage_zero, bladeImage_zero, outerProduct_blade_zero_left]
  | top c u hu ih =>
      simp only [runningImage_add_top hu, hE.cut_eq]
      rw [ih, bladeImage_add_top v hu, outerProduct_assoc]

end RunningImage

/-! ## One more vector -/

section Branch

variable {S : Scalars α} {images : List (Terms α)} {d : Nat} {node : Node (ImageState α)}

/-- The running product of a child. -/
def childRunning (S : Scalars α) (images : List (Terms α)) (node : Node (ImageState α))
    (taken : Bool) : Nat → α :=
  if taken then fun r => S.cut (outerProduct (imageFamily images node.childVector)
    (Terms.coeff node.state.running) r)
  else Terms.coeff node.state.running

/-- Deciding a vector moves its image from the undecided part to the running product. -/
theorem runningImage_childTerms (h : ImageNode (d + 1) node) {taken : Bool} {t : Nat × α}
    (ht : t ∈ childTerms node taken node.state.terms) :
    runningImage S (imageFamily images) (t.1 % 2 ^ (d + 1)) (Terms.coeff node.state.running)
      = runningImage S (imageFamily images) (t.1 % 2 ^ d) (childRunning S images node taken) := by
  have hmod : t.1 % 2 ^ (d + 1) = 2 ^ d * taken.toNat + t.1 % 2 ^ d := by
    rw [Nat.mod_pow_succ, ← Nat.toNat_testBit, h.testBit_of_mem ht, Nat.add_comm]
  rw [childRunning, h.childVector, hmod]
  cases taken with
  | false => simp
  | true =>
      rw [if_pos rfl, Bool.toNat_true, Nat.mul_one,
        runningImage_add_top (Nat.mod_lt _ (Nat.two_pow_pos d))]

/-- The coefficient of a blade in the images of the given terms: the vectors of a term that are
    undecided at depth `d`, multiplied to the product of those decided, times the coefficient. -/
def contribution (S : Scalars α) (images : List (Terms α)) (d : Nat) (running : Nat → α)
    (terms : List (Nat × α)) (r : Nat) : α :=
  (terms.map fun t =>
    t.2 * runningImage S (imageFamily images) (t.1 % 2 ^ d) running r).sum

theorem contribution_childTerms (h : ImageNode (d + 1) node) (taken : Bool) (r : Nat) :
    contribution S images (d + 1) (Terms.coeff node.state.running)
        (childTerms node taken node.state.terms) r
      = contribution S images d (childRunning S images node taken)
          (childTerms node taken node.state.terms) r := by
  rw [contribution, contribution]
  congr 1
  refine List.map_congr_left fun t ht => ?_
  rw [runningImage_childTerms h ht]

/-- The terms of a node are those of its two halves. -/
theorem contribution_split (node : Node (ImageState α)) (d : Nat) (running : Nat → α) (r : Nat) :
    contribution S images d running node.state.terms r
      = contribution S images d running (childTerms node false node.state.terms) r
        + contribution S images d running (childTerms node true node.state.terms) r := by
  simp only [contribution, childTerms]
  induction node.state.terms with
  | nil => simp
  | cons t terms ih =>
      rw [List.map_cons, List.sum_cons, ih, List.filter_cons, List.filter_cons]
      cases t.1.testBit node.childVector with
      | false => simp [add_assoc]
      | true => simp [add_left_comm]

/-- A leaf adds what its term contributes. -/
theorem coeff_leaf (hS : S.IsRing) (h : ImageNode 0 node) (sum : Terms α) (r : Nat) :
    Terms.coeff ((imageWalker S images).leaf sum node) r
      = Terms.coeff sum r
        + contribution S images 0 (Terms.coeff node.state.running) node.state.terms r := by
  rcases h.terms_of_leaf with hterms | ⟨t, hterms⟩
  · simp [imageWalker, contribution, hterms]
  · have hone : t.1 % 2 ^ 0 = 0 := by rw [Nat.pow_zero, Nat.mod_one]
    simp only [imageWalker, contribution, hterms, List.map_cons, List.map_nil, List.sum_cons,
      List.sum_nil, add_zero, hone, runningImage_zero]
    rw [Terms.coeff_addScaled hS,
      Terms.sum_toList_ite_eq node.state.running r (g := fun v => v * t.2) (zero_mul _), mul_comm]

/-! ## Children -/

variable (hS : S.IsRing) (h0 : S.isZero 0 = true)

include hS h0

theorem coeff_wedge_running (node : Node (ImageState α)) :
    Terms.coeff (Terms.wedge S (images.getD node.childVector ∅) node.state.running)
      = childRunning S images node true := by
  funext r
  rw [Terms.coeff_wedge_cut hS h0, childRunning, if_pos rfl, imageFamily]

/-- An accepted child has the terms of its half and the running product of its vectors. -/
theorem imageBranch_eq_some {b : Nat} {s : ImageState α}
    (hs : imageBranch S images node b = some s) :
    s.terms = childTerms node (b % 2 == 1) node.state.terms ∧
      Terms.coeff s.running = childRunning S images node (b % 2 == 1) := by
  obtain ⟨hterms, -, hrunning⟩ := imageBranch_cases hs
  refine ⟨hterms, ?_⟩
  rw [hrunning]
  cases b % 2 == 1 with
  | false => rw [if_neg Bool.false_ne_true, childRunning, if_neg Bool.false_ne_true]
  | true => exact coeff_wedge_running hS h0 node

/-- A child is left out only where it has no terms or its running product is zero. -/
theorem imageBranch_eq_none {b : Nat} (hb : imageBranch S images node b = none) :
    childTerms node (b % 2 == 1) node.state.terms = [] ∨
      childRunning S images node (b % 2 == 1) = 0 := by
  simp only [imageBranch, imageWalker] at hb
  split_ifs at hb with hterms htaken hzero
  · exact Or.inl (List.isEmpty_iff.mp hterms)
  · refine Or.inr ?_
    rw [htaken]
    rcases (Bool.or_eq_true _ _).mp hzero with himage | hrunning
    · funext r
      rw [childRunning, if_pos rfl, imageFamily, Terms.coeff_eq_zero_of_isEmpty himage,
        outerProduct_zero_left, Pi.zero_apply, S.cut_zero]
    · rw [← coeff_wedge_running hS h0, Terms.coeff_eq_zero_of_isEmpty hrunning]

/-- **The leaves below a node add up its contribution.** -/
theorem coeff_foldl_leavesBelow (h : ImageNode d node) (sum : Terms α) (r : Nat) :
    Terms.coeff ((leavesBelow 2 (imageBranch S images) d node).foldl
        (imageWalker S images).leaf sum) r
      = Terms.coeff sum r
        + contribution S images d (Terms.coeff node.state.running) node.state.terms r := by
  induction d generalizing node sum with
  | zero => exact coeff_leaf hS h sum r
  | succ d ih =>
      have hbranch : ∀ (b : Nat) (sum : Terms α),
          Terms.coeff ((((imageBranch S images node b).map (childNode node b)).toList.flatMap
              (leavesBelow 2 (imageBranch S images) d)).foldl (imageWalker S images).leaf sum) r
            = Terms.coeff sum r + contribution S images (d + 1) (Terms.coeff node.state.running)
                (childTerms node (b % 2 == 1) node.state.terms) r := by
        intro b sum
        rw [contribution_childTerms h]
        cases hs : imageBranch S images node b with
        | none =>
            -- nothing below this child contributes
            rcases imageBranch_eq_none hS h0 hs with hterms | hrunning
            · simp [contribution, hterms]
            · simp [contribution, hrunning]
        | some s =>
            obtain ⟨hterms, hrunning⟩ := imageBranch_eq_some hS h0 hs
            rw [Option.map_some, Option.toList_some, List.flatMap_singleton, ih (h.child hterms)]
            simp only [childNode]
            rw [hterms, hrunning]
      have hchildren : childrenOf 2 (imageBranch S images) node
          = ((imageBranch S images node 0).map (childNode node 0)).toList
            ++ ((imageBranch S images node 1).map (childNode node 1)).toList := by
        simp only [childrenOf, List.range_succ, List.range_zero, List.nil_append,
          List.filterMap_append, List.filterMap_cons, List.filterMap_nil]
        cases imageBranch S images node 0 <;> cases imageBranch S images node 1 <;> rfl
      rw [leavesBelow, hchildren, List.flatMap_append, List.foldl_append, hbranch, hbranch,
        contribution_split node, add_assoc]
      rfl

end Branch

/-! ## The whole walk -/

/-- **The walk adds up the images of the terms that it computes, each multiplied by its
    coefficient.** -/
theorem coeff_sumOfImages_cut {S : Scalars α} (hS : S.IsRing) (h0 : S.isZero 0 = true)
    (images : List (Terms α)) {mv : Multivector α} (hn : images.length ≤ maxDimension)
    (h : mv.InRange images.length) (r : Nat) :
    Terms.coeff (sumOfImages S images mv).1 r = (mv.terms.map fun t =>
      t.2 * runningImage S (imageFamily images) t.1 (bladeFamily 0) r).sum := by
  have hperm : (rootTerms images.length mv).Perm mv.terms :=
    (List.perm_ext_iff_of_nodup (nodup_map_fst_rootTerms _ mv).of_map
      (Multivector.nodup_terms hn h).of_map).mpr fun t => mem_rootTerms hn h
  rw [sumOfImages_eq_foldl, imageLeaves, coeff_foldl_leavesBelow hS h0 (imageNode_root _ mv _),
    Terms.coeff_empty, zero_add, contribution, Terms.coeff_one hS, ← (hperm.map _).sum_eq]
  congr 1
  refine List.map_congr_left fun t ht => ?_
  have hlt := Multivector.lt_of_mem_terms hn h ((mem_rootTerms hn h).mp ht)
  rw [Nat.mod_eq_of_lt hlt]

/-- **The walk adds up the images of the terms, each multiplied by its coefficient.** -/
theorem coeff_sumOfImages {S : Scalars α} (hS : S.IsRing) (hE : S.IsExact) (images : List (Terms α))
    {mv : Multivector α} (hn : images.length ≤ maxDimension) (h : mv.InRange images.length)
    (r : Nat) :
    Terms.coeff (sumOfImages S images mv).1 r
      = (mv.terms.map fun t => t.2 * bladeImage (imageFamily images) t.1 r).sum := by
  simp only [coeff_sumOfImages_cut hS hE.isZero_zero images hn h, runningImage_eq hE,
    outerProduct_blade_zero_right]

end BladeTree

end GeometricAlgebra

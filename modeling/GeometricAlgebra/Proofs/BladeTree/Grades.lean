import GeometricAlgebra.Proofs.BladeTree.Node
import GeometricAlgebra.Proofs.BladeTree.Walk
import GeometricAlgebra.Proofs.Multivector.Lookup

set_option autoImplicit false

/-! # What the walk over grades collects

The walk decides on a child without looking at what it has found (`descend_gradeWalker`), so it is a
fold over the leaves it reaches. A node carries the terms that agree with it on the vectors already
decided (`GradeNode`). Deciding one more vector cuts this list in two halves, the first of which
stays in front (`childTerms_append`), and a half that is left out has no term of a chosen grade
(`chosen_of_left_out`): between the grade of its blade and that grade plus its depth lie the grades
of all blades below a node (`grade_le_of_agree`). So **the walk finds the terms of the root whose
grade is chosen**, in their order (`termsOfGrades_eq_filter`). -/

namespace GeometricAlgebra

namespace BladeTree

open Blade

variable {α : Type}

/-! ## Sets of grades -/

theorem testBit_gradeMask (grades : List Nat) (g : Nat) :
    (gradeMask grades).testBit g = decide (g ∈ grades ∧ g ≤ maxDimension) := by
  induction grades using List.reverseRecOn with
  | nil => simp [gradeMask]
  | append_singleton grades k ih =>
      rw [gradeMask, List.foldl_append, ← gradeMask, List.foldl_cons, List.foldl_nil]
      by_cases hk : k ≤ maxDimension
      · rw [if_pos hk, Nat.testBit_or, ih, Nat.one_shiftLeft, Nat.testBit_two_pow]
        by_cases hg : k = g
        · simp [← hg, hk]
        · simp [hg, Ne.symm hg]
      · -- a grade without blades is not in the set, wherever it is in the list
        rw [if_neg hk, ih]
        by_cases hg : g = k
        · simp [hg, hk]
        · simp [hg]

theorem meetsGrades_iff {mask low width : Nat} :
    meetsGrades mask low width = true ↔ ∃ g, low ≤ g ∧ g ≤ low + width ∧ mask.testBit g = true := by
  have hbit : ∀ g, (mask &&& (1 <<< (width + 1) - 1) <<< low).testBit g = true
      ↔ low ≤ g ∧ g ≤ low + width ∧ mask.testBit g = true := by
    intro g
    rw [Nat.testBit_and, Nat.testBit_shiftLeft, Nat.one_shiftLeft, Nat.testBit_two_pow_sub_one,
      Bool.and_eq_true, Bool.and_eq_true, decide_eq_true_eq, decide_eq_true_eq]
    constructor
    · rintro ⟨hmask, hlow, hwidth⟩
      exact ⟨hlow, by omega, hmask⟩
    · rintro ⟨hlow, hwidth, hmask⟩
      exact ⟨hmask, hlow, by omega⟩
  rw [meetsGrades, bne_iff_ne]
  simp only [← hbit]
  refine ⟨Nat.exists_testBit_of_ne_zero, ?_⟩
  rintro ⟨g, hg⟩ hzero
  rw [hzero, Nat.zero_testBit] at hg
  cases hg

/-- The terms whose grade is in a set. -/
def chosen (mask : Nat) (l : List (Nat × α)) : List (Nat × α) :=
  l.filter fun t => mask.testBit (grade t.1)

/-! ## The grades below a node -/

/-- A blade that agrees with `b` on the vectors from `d` up, of which alone `b` is made, has at most
    `d` vectors more. -/
theorem grade_le_of_agree {d b c : Nat} (hb : Decided d b)
    (h : ∀ i, d ≤ i → c.testBit i = b.testBit i) : grade b ≤ grade c ∧ grade c ≤ grade b + d := by
  have hsub : vectorSet b ⊆ vectorSet c := by
    intro i hi
    rw [mem_vectorSet, h i (hb.lt_of_mem hi)]
    exact mem_vectorSet.mp hi
  have hsup : vectorSet c ⊆ vectorSet b ∪ Finset.range d := by
    intro i hi
    rw [Finset.mem_union, Finset.mem_range]
    by_cases hd : d ≤ i
    · rw [mem_vectorSet, h i hd] at hi
      exact Or.inl (mem_vectorSet.mpr hi)
    · exact Or.inr (not_le.mp hd)
  rw [grade_eq_card, grade_eq_card]
  refine ⟨Finset.card_le_card hsub, (Finset.card_le_card hsup).trans ?_⟩
  exact (Finset.card_union_le _ _).trans_eq (by rw [Finset.card_range])

/-! ## Children -/

/-- The terms of a child, or none where it is left out. -/
def gradeBranch (mask : Nat) (node : Node (List (Nat × α))) (b : Nat) : Option (List (Nat × α)) :=
  ((gradeWalker α mask).descend [] node b).1

theorem descend_gradeWalker (mask : Nat) (found : List (Nat × α)) (node : Node (List (Nat × α)))
    (b : Nat) : (gradeWalker α mask).descend found node b = (gradeBranch mask node b, found) := by
  simp only [gradeBranch, gradeWalker]
  split_ifs <;> rfl

/-- What an accepted child is: it has the terms of its half, and there are some. -/
theorem gradeBranch_cases {mask b : Nat} {node : Node (List (Nat × α))} {below : List (Nat × α)}
    (h : gradeBranch mask node b = some below) :
    below = childTerms node (b % 2 == 1) node.state ∧ below ≠ [] := by
  simp only [gradeBranch, gradeWalker] at h
  split_ifs at h with _ hterms
  cases h
  exact ⟨rfl, fun hnil => hterms (List.isEmpty_iff.mpr hnil)⟩

/-- Why a child is left out: it can have none of the grades, or it has no terms. -/
theorem gradeBranch_eq_none {mask b : Nat} {node : Node (List (Nat × α))}
    (h : gradeBranch mask node b = none) :
    meetsGrades mask (grade (node.childBlade (b % 2 == 1))) node.childVector = false ∨
      childTerms node (b % 2 == 1) node.state = [] := by
  simp only [gradeBranch, gradeWalker] at h
  split_ifs at h with hgrades hterms
  · exact Or.inl (by simpa using hgrades)
  · exact Or.inr (List.isEmpty_iff.mp hterms)

/-! ## The invariant -/

/-- What is known about a node at depth `d`: its blade has no vector that is still undecided, and
    its terms ascend and agree with it on the others. -/
structure GradeNode (d : Nat) (node : Node (List (Nat × α))) : Prop where
  depth : node.depth = d
  decided : Decided d node.blade
  ascending : node.state.Pairwise fun s t => s.1 < t.1
  agree : ∀ t ∈ node.state, ∀ i, d ≤ i → t.1.testBit i = node.blade.testBit i

namespace GradeNode

variable {d : Nat} {node : Node (List (Nat × α))}

theorem child (h : GradeNode (d + 1) node) (b : Nat) :
    GradeNode d (childNode node b (childTerms node (b % 2 == 1) node.state)) where
  depth := depth_childNode h.depth b _
  decided := by
    rw [childNode, childBlade_eq_putVector h.depth]
    exact h.decided.putVector _
  ascending := h.ascending.filter _
  agree := by
    have hd : node.blade.testBit d = false := h.decided d (Nat.lt_succ_self d)
    simp only [childNode, childBlade_eq_putVector h.depth, childTerms_eq h.depth, List.mem_filter,
      beq_iff_eq]
    rintro t ⟨ht, htd⟩ i hi
    rcases Nat.eq_or_lt_of_le hi with rfl | hlt
    · rw [htd, testBit_putVector_self _ hd]
    · rw [h.agree t ht i hlt, testBit_putVector_of_ne _ (by omega)]

/-- The terms without the vector come first. -/
theorem childTerms_append (h : GradeNode (d + 1) node) :
    childTerms node false node.state ++ childTerms node true node.state = node.state := by
  rw [childTerms_eq h.depth, childTerms_eq h.depth]
  have hagree := h.agree
  have hascending := h.ascending
  generalize node.state = l at hagree hascending
  induction l with
  | nil => rfl
  | cons s rest ih =>
      obtain ⟨hs, hrest⟩ := List.pairwise_cons.mp hascending
      have ih := ih (fun t ht => hagree t (List.mem_cons_of_mem s ht)) hrest
      cases hbit : s.1.testBit d with
      | false => simpa [List.filter_cons, hbit] using ih
      | true =>
          -- what comes after a term with the vector has it too
          have hafter : ∀ t ∈ s :: rest, t.1.testBit d = true := by
            intro t ht
            rcases List.mem_cons.mp ht with rfl | ht
            · exact hbit
            · refine Bool.of_not_eq_false fun htd => ?_
              refine absurd (hs t ht) (not_lt.mpr (Nat.lt_of_testBit d htd hbit ?_).le)
              intro j hj
              rw [hagree t (List.mem_cons_of_mem s ht) j hj, hagree s List.mem_cons_self j hj]
          have hfalse : (s :: rest).filter (fun t => t.1.testBit d == false) = [] :=
            List.filter_eq_nil_iff.mpr fun t ht => by simp [hafter t ht]
          have htrue : (s :: rest).filter (fun t => t.1.testBit d == true) = s :: rest :=
            List.filter_eq_self.mpr fun t ht => by simp [hafter t ht]
          rw [hfalse, htrue, List.nil_append]

/-- Below a child that is left out no term has a grade of the set. -/
theorem chosen_of_left_out (h : GradeNode (d + 1) node) {mask b : Nat}
    (hb : gradeBranch mask node b = none) :
    chosen mask (childTerms node (b % 2 == 1) node.state) = [] := by
  rcases gradeBranch_eq_none hb with hgrades | hterms
  · refine List.filter_eq_nil_iff.mpr fun t ht hbit => ?_
    have hchild := h.child b
    obtain ⟨hlow, hhigh⟩ := grade_le_of_agree hchild.decided (hchild.agree t ht)
    rw [childVector_eq h.depth] at hgrades
    have hmeets : meetsGrades mask (grade (node.childBlade (b % 2 == 1))) d = true :=
      meetsGrades_iff.mpr ⟨grade t.1, hlow, hhigh, hbit⟩
    rw [hgrades] at hmeets
    cases hmeets
  · rw [hterms]
    rfl

/-- A leaf has the term of its own blade, if any. -/
theorem terms_of_leaf (h : GradeNode 0 node) :
    node.state = [] ∨ ∃ v, node.state = [(node.blade, v)] := by
  have hblade : ∀ t ∈ node.state, t.1 = node.blade := fun t ht =>
    Nat.eq_of_testBit_eq fun i => h.agree t ht i (Nat.zero_le i)
  have hascending := h.ascending
  cases hstate : node.state with
  | nil => exact Or.inl rfl
  | cons s rest =>
      rw [hstate] at hblade hascending
      cases rest with
      | nil => exact Or.inr ⟨s.2, by rw [← hblade s List.mem_cons_self]⟩
      | cons t rest =>
          have hlt := List.rel_of_pairwise_cons hascending List.mem_cons_self
          rw [hblade s List.mem_cons_self,
            hblade t (List.mem_cons_of_mem s List.mem_cons_self)] at hlt
          exact absurd hlt (lt_irrefl _)

theorem leaf_eq (h : GradeNode 0 node) (mask : Nat) (found : List (Nat × α)) :
    (gradeWalker α mask).leaf found node = (chosen mask node.state).reverse ++ found := by
  have hmeets : meetsGrades mask (grade node.blade) 0 = mask.testBit (grade node.blade) := by
    rw [Bool.eq_iff_iff, meetsGrades_iff]
    constructor
    · rintro ⟨g, hlow, hhigh, hbit⟩
      rwa [le_antisymm hlow hhigh]
    · exact fun hbit => ⟨_, le_rfl, le_rfl, hbit⟩
  simp only [gradeWalker, hmeets]
  rcases h.terms_of_leaf with hnil | ⟨v, hv⟩
  · simp [hnil, chosen]
  · by_cases hbit : mask.testBit (grade node.blade) <;> simp [hv, chosen, hbit]

/-- **Below a node the walk finds the chosen terms that the node has**, from left to right. -/
theorem foldl_leavesBelow (mask : Nat) (h : GradeNode d node) (found : List (Nat × α)) :
    (leavesBelow 2 (gradeBranch mask) d node).foldl (gradeWalker α mask).leaf found
      = (chosen mask node.state).reverse ++ found := by
  induction d generalizing node found with
  | zero => exact h.leaf_eq mask found
  | succ d ih =>
      -- one branch adds the chosen terms of its half, whether it is visited or left out
      have hbranch : ∀ b found, ((gradeBranch mask node b).map (childNode node b)).elim found
          (fun child => (leavesBelow 2 (gradeBranch mask) d child).foldl (gradeWalker α mask).leaf
            found)
          = (chosen mask (childTerms node (b % 2 == 1) node.state)).reverse ++ found := by
        intro b found
        cases hb : gradeBranch mask node b with
        | none =>
            rw [h.chosen_of_left_out hb]
            rfl
        | some below =>
            obtain ⟨rfl, -⟩ := gradeBranch_cases hb
            exact ih (h.child b) found
      have hfirst := hbranch 0
      have hsecond := hbranch 1
      rw [show (0 % 2 == 1) = false from rfl] at hfirst
      rw [show (1 % 2 == 1) = true from rfl] at hsecond
      have hchildren : (childrenOf 2 (gradeBranch mask) node).foldl
          (fun found child => (leavesBelow 2 (gradeBranch mask) d child).foldl
            (gradeWalker α mask).leaf found) found
          = (chosen mask (childTerms node true node.state)).reverse
            ++ ((chosen mask (childTerms node false node.state)).reverse ++ found) := by
        rw [← hfirst, ← hsecond, childrenOf, List.range_succ, List.range_one,
          List.singleton_append, List.filterMap_cons, List.filterMap_cons, List.filterMap_nil]
        cases gradeBranch mask node 0 <;> cases gradeBranch mask node 1 <;> rfl
      rw [leavesBelow, List.foldl_flatMap, hchildren, ← List.append_assoc, ← List.reverse_append,
        chosen, chosen, ← List.filter_append, h.childTerms_append, chosen]

end GradeNode

/-! ## The whole walk -/

theorem gradeNode_root (n : Nat) (mv : Multivector α) :
    GradeNode n (⟨n, 0, rootTerms n mv⟩ : Node (List (Nat × α))) where
  depth := rfl
  decided := fun i _ => Nat.zero_testBit i
  ascending := (Multivector.pairwise_toList mv.toTerms).filter _
  agree t ht := ((below_rootTerms n mv t).mp ht).2

/-- The walk finds the terms of the root whose grade is chosen, in their order. -/
theorem termsOfGrades_eq_filter (n : Nat) (grades : List Nat) (mv : Multivector α) :
    (termsOfGrades n grades mv).1 = chosen (gradeMask grades) (rootTerms n mv) := by
  have hwalk : (termsOfGrades n grades mv).1
      = ((leavesBelow 2 (gradeBranch (gradeMask grades)) n ⟨n, 0, rootTerms n mv⟩).foldl
        (gradeWalker α (gradeMask grades)).leaf []).reverse :=
    congrArg List.reverse (walk_state_of_pure (descend_gradeWalker _) n _ [])
  rw [hwalk, (gradeNode_root n mv).foldl_leavesBelow, List.append_nil, List.reverse_reverse]

section Root

variable {n : Nat} {grades : List Nat} {mv : Multivector α}

theorem mem_rootTerms_of_mem_termsOfGrades :
    ∀ t ∈ (termsOfGrades n grades mv).1, t ∈ rootTerms n mv := by
  rw [termsOfGrades_eq_filter]
  exact fun t ht => List.mem_of_mem_filter ht

theorem pairwise_termsOfGrades :
    (termsOfGrades n grades mv).1.Pairwise fun s t => s.1 < t.1 := by
  rw [termsOfGrades_eq_filter]
  exact (gradeNode_root n mv).ascending.filter _

/-- The terms that are found, in an algebra that need not have all terms. -/
theorem mem_termsOfGrades (hmv : mv.InRange maxDimension) {t : Nat × α} :
    t ∈ (termsOfGrades n grades mv).1 ↔ t ∈ mv.terms ∧ t.1 < 2 ^ n ∧ grade t.1 ∈ grades := by
  rw [termsOfGrades_eq_filter, chosen, List.mem_filter, rootTerms, List.mem_filter,
    Std.ExtTreeMap.mem_toList_iff_getElem?_eq_some, Multivector.getElem?_toTerms_iff le_rfl hmv,
    decide_eq_true_eq, Nat.one_shiftLeft, testBit_gradeMask, decide_eq_true_eq, and_assoc]
  refine and_congr_right fun ht => and_congr_right fun _ => and_iff_left ?_
  exact grade_le_of_lt (Multivector.lt_of_mem_terms le_rfl hmv ht)

end Root

end BladeTree

end GeometricAlgebra

import GeometricAlgebra.Proofs.BladeTree.Grades
import GeometricAlgebra.Proofs.BladeTree.Images
import GeometricAlgebra.Proofs.BladeTree.Pairs
import GeometricAlgebra.Proofs.BladeTree.Pruning
import GeometricAlgebra.Proofs.Contracts.Descent

set_option autoImplicit false

/-! # Contracts on walks

The three walks with guards: over the terms of chosen grades, over images of blades and over pairs
of terms. A guarded decision on a child makes its queries only where nothing else has left the child
out before, and the walk over images looks up the image of the vector that the node decides. Sets of
grades are words of 128 bits, so nothing is asked of their shifts.

Each walk gives what its plain counterpart gives, the counts of nodes included. So a walk that asks
for the keys of a range is as long as one that hands terms down, and that is proportional to the
terms (`proportional_queries`). -/

namespace GeometricAlgebra

namespace Guarded

open Blade BladeTree

variable {α ω : Type}

/-! ## The terms of chosen grades -/

def gradeDecide (index : Terms α) (mask : Nat) (node : Node Unit) (b : Nat) :
    Option (Option Unit) := do
  let (first, last) ← childRange node node.blade (b % 2 == 1)
  if !meetsGrades mask (grade first) node.childVector then return none
  else if !(← hasKey index first last) then return none
  else return some ()

def gradeLeaf (index : Terms α) (mask : Nat) (found : List (Nat × α)) (node : Node Unit) :
    List (Nat × α) :=
  if meetsGrades mask (grade node.blade) 0 then
    match index[node.blade]? with
    | some v => (node.blade, v) :: found
    | none => found
  else found

def termsOfGrades (n : Nat) (grades : List Nat) (mv : Multivector α) :
    Option (List (Nat × α) × Stats) := do
  let index ← toTerms mv
  let mask := gradeMask grades
  let (found, stats) ←
    ofWalk (walk n (walker 2 (gradeDecide index mask) (gradeLeaf index mask)) () (some []))
  return (found.reverse, stats)

theorem termsOfGrades_eq {n : Nat} (hn : n ≤ maxDimension) (grades : List Nat)
    {mv : Multivector α} (h : mv.InRange n) :
    termsOfGrades n grades mv = some (BladeTree.termsOfGrades n grades mv) := by
  suffices hwalk : ofWalk (walk n (walker 2 (gradeDecide mv.toTerms (gradeMask grades))
        (gradeLeaf mv.toTerms (gradeMask grades))) () (some []))
      = some (walk n (gradeWalker α (gradeMask grades)) (rootTerms n mv) []) by
    rw [termsOfGrades, toTerms_eq hn h]
    exact congrArg (fun done => done.bind fun r => some (r.1.reverse, r.2)) hwalk
  refine walker_eq (f := fun _ => ())
    (P := fun d node => node.depth = d ∧ Follows mv.toTerms d node.blade node.state)
    (descend_gradeWalker _) (fun _ _ h => h.1) ?_ ?_ ?_ hn
    (rootTerms n mv) ⟨rfl, follows_rootTerms n mv⟩ []
  · rintro d node b s ⟨hdepth, hterms⟩ - hs
    refine ⟨depth_childNode hdepth b s, ?_⟩
    simp only [childNode, (gradeBranch_cases hs).1, childBlade_eq_putVector hdepth]
    exact hterms.childTerms hdepth _
  · rintro d node b hd ⟨hdepth, hterms⟩ -
    simp only [gradeDecide, mapState_childVector, childRange_mapState,
      childRange_eq hdepth hd, Option.bind_eq_bind, Option.bind_some, hasKey_child hdepth hd hterms,
      gradeBranch, gradeWalker, childBlade_eq_putVector hdepth, Bool.not_not]
    split_ifs <;> rfl
  · rintro node found ⟨-, hterms⟩
    simp only [gradeLeaf, gradeWalker, hterms.eq_lookup]
    cases mv.toTerms[node.blade]? <;> rfl

/-! ## Images of blades -/

def imageDecide (S : Scalars α) (images : List (Terms α)) (index : Terms α) (node : Node (Terms α))
    (b : Nat) : Option (Option (Terms α)) := do
  let taken := b % 2 == 1
  let (first, last) ← childRange node node.blade taken
  if !(← hasKey index first last) then return none
  else if !taken then return some node.state
  else
    let image ← entry images node.childVector
    if image.isEmpty then return none
    else
      let running := Terms.wedge S image node.state
      if running.isEmpty then return none else return some running

def imageLeaf (S : Scalars α) (index : Terms α) (sum : Terms α) (node : Node (Terms α)) :
    Terms α :=
  match index[node.blade]? with
  | some v => Terms.addScaled S sum node.state.toList v
  | none => sum

def sumOfImages (S : Scalars α) (images : List (Terms α)) (mv : Multivector α) :
    Option (Terms α × Stats) := do
  let index ← toTerms mv
  ofWalk (walk images.length (walker 2 (imageDecide S images index) (imageLeaf S index))
    ((∅ : Terms α).insert 0 S.one) (some ∅))

theorem entry_eq {l : List (Terms α)} {i : Nat} (hi : i < l.length) :
    entry l i = some (l.getD i ∅) := by
  rw [entry, List.getElem?_eq_getElem hi, List.getD_eq_getElem _ _ hi]

/-- A node at depth `d` decides a vector that has an image. -/
theorem sumOfImages_eq (S : Scalars α) {images : List (Terms α)}
    (hn : images.length ≤ maxDimension) {mv : Multivector α} (h : mv.InRange images.length) :
    sumOfImages S images mv = some (BladeTree.sumOfImages S images mv) := by
  rw [sumOfImages, toTerms_eq hn h, BladeTree.sumOfImages]
  refine walker_eq (w := imageWalker S images) (f := ImageState.running)
    (P := fun d node => d ≤ images.length ∧ node.depth = d ∧
      Follows mv.toTerms d node.blade node.state.terms)
    (descend_imageWalker S images) (fun _ _ h => h.2.1) ?_ ?_ ?_ hn
    ⟨_, rootTerms images.length mv⟩ ⟨le_rfl, rfl, follows_rootTerms images.length mv⟩ ∅
  · rintro d node b s ⟨hd, hdepth, hterms⟩ - hs
    refine ⟨Nat.le_of_succ_le hd, depth_childNode hdepth b s, ?_⟩
    simp only [childNode, (imageBranch_cases hs).1, childBlade_eq_putVector hdepth]
    exact hterms.childTerms hdepth _
  · rintro d node b hd ⟨hlength, hdepth, hterms⟩ -
    simp only [imageDecide, mapState_childVector,
      childRange_mapState, childRange_eq hdepth hd, Option.bind_eq_bind, Option.bind_some,
      hasKey_child hdepth hd hterms, childVector_eq hdepth, entry_eq hlength, imageBranch,
      imageWalker, Bool.not_not]
    by_cases hempty : (childTerms node (b % 2 == 1) node.state.terms).isEmpty = true
    · rw [if_pos hempty, if_pos hempty]
      rfl
    · rw [if_neg hempty, if_neg hempty]
      cases b % 2 == 1 with
      | false => rfl
      | true =>
          cases (images.getD d ∅).isEmpty with
          | true => rfl
          | false =>
              simp only [Bool.not_true, Bool.false_eq_true, if_false, if_true, Bool.false_or]
              split_ifs <;> rfl
  · rintro node sum ⟨-, -, hterms⟩
    simp only [imageLeaf, imageWalker, hterms.eq_lookup]
    cases mv.toTerms[node.blade]? <;> rfl

/-! ## Pairs of terms -/

/-- What a node knows of a pair besides its terms. -/
abbrev bare (s : PairState α) : PairState α := { s with firstTerms := [], secondTerms := [] }

/-- The square that a vector shared by both blades contributes. -/
def sharedSquare (sig : Signature) (i : Nat) (shared : Bool) : Option Int :=
  if shared then do return (← square sig i).sign else some 1

def pairDecide (k : Product) (sig : Signature) (first second : Terms α) (node : Node (PairState α))
    (b : Nat) : Option (Option (PairState α)) := do
  let inFirst := b % 2 == 1
  let inSecond := b / 2 % 2 == 1
  let s := node.state
  let left := s.left && !(inFirst && !inSecond)
  let right := s.right && !(inSecond && !inFirst)
  if dropsVector k inFirst inSecond then return none
  else if dropsApart k && !left && !right then return none
  else
    let square ← sharedSquare sig node.childVector (inFirst && inSecond)
    if square = 0 then return none
    else
      let (low, high) ← childRange node node.blade inFirst
      if !(← hasKey first low high) then return none
      else
        let (low, high) ← childRange node s.second inSecond
        if !(← hasKey second low high) then return none
        else
          return some {
            second := ← childBlade node s.second inSecond
            odd := s.odd != (inSecond && grade node.blade % 2 == 1)
            metric := s.metric * square
            left, right, firstTerms := [], secondTerms := [] }

def pairLeaf (k : Product) (first second : Terms α) (f : ω → SignedPair α → ω) (acc : ω)
    (node : Node (PairState α)) : ω :=
  if keepsLeaf k node.blade node.state.second then
    match first[node.blade]?, second[node.state.second]? with
    | some v, some u => f acc ⟨(node.blade, v), (node.state.second, u), node.state.sign⟩
    | _, _ => acc
  else acc

def foldPairs (k : Product) (sig : Signature) (a b : Multivector α) (f : ω → SignedPair α → ω)
    (init : ω) : Option (ω × Stats) := do
  let first ← toTerms a
  let second ← toTerms b
  ofWalk (walk sig.dimension (walker 4 (pairDecide k sig first second) (pairLeaf k first second f))
    { second := 0, odd := false, metric := 1, left := true, right := true
      firstTerms := [], secondTerms := [] } (some init))

theorem sharedSquare_eq (sig : Signature) {i : Nat} (hi : i < maxDimension) (shared : Bool) :
    sharedSquare sig i shared = some (if shared then (sig.square i).sign else 1) := by
  cases shared with
  | false => rfl
  | true =>
      rw [sharedSquare, square_eq sig hi]
      rfl

theorem foldPairs_eq (k : Product) (sig : Signature) {a b : Multivector α}
    (ha : a.InRange sig.dimension) (hb : b.InRange sig.dimension) (f : ω → SignedPair α → ω)
    (init : ω) : foldPairs k sig a b f init = some (BladeTree.foldPairs k sig a b f init) := by
  have hn := sig.dimension_le
  rw [foldPairs, toTerms_eq hn ha, toTerms_eq hn hb, BladeTree.foldPairs]
  refine walker_eq (w := pairWalker k sig f) (g := pairBranch k sig) (f := bare)
    (P := fun d node => node.depth = d ∧ Follows a.toTerms d node.blade node.state.firstTerms ∧
      Follows b.toTerms d node.state.second node.state.secondTerms)
    (fun _ _ _ => rfl) (fun _ _ h => h.1) ?_ ?_ ?_ hn
    (rootPair sig.dimension a b) ⟨rfl, follows_rootTerms _ a, follows_rootTerms _ b⟩ init
  · rintro d node b' s ⟨hdepth, hfirst, hsecond⟩ - hs
    refine ⟨depth_childNode hdepth b' s, ?_⟩
    simp only [childNode, (descendPair_cases hs).1, childPair, childBlade_eq_putVector hdepth,
      childVector_eq hdepth]
    exact ⟨hfirst.childTerms hdepth _, hsecond.childTerms hdepth _⟩
  · rintro d node b' hd ⟨hdepth, hfirst, hsecond⟩ -
    simp only [pairDecide, mapState_childVector, childRange_mapState, childBlade_mapState,
      childBlade_eq hdepth hd, childRange_eq hdepth hd, Option.bind_eq_bind, Option.bind_some,
      hasKey_child hdepth hd hfirst, hasKey_child hdepth hd hsecond, childVector_eq hdepth,
      sharedSquare_eq sig hd, pairBranch, descendPair, or_childBit_eq_putVector hdepth,
      Bool.not_not, Bool.or_eq_true, ite_or]
    generalize (if (b' % 2 == 1 && b' / 2 % 2 == 1) = true then (sig.square d).sign else 1) = square
    split_ifs <;> rfl
  · rintro node acc ⟨-, hfirst, hsecond⟩
    simp only [pairLeaf, pairWalker, hfirst.eq_lookup, hsecond.eq_lookup]
    by_cases hkeeps : keepsLeaf k node.blade node.state.second = true
    · simp only [if_pos hkeeps]
      cases a.toTerms[node.blade]? <;> cases b.toTerms[node.state.second]? <;> rfl
    · simp only [if_neg hkeeps]
      split <;> rfl

/-! ## Lengths -/

/-- **Walks that query ranges of keys are proportional to the terms they look for.** On multivectors
    of the algebra they break no contract, and visit no more nodes than `Stats.Proportional` says of
    the terms of one, or of the pairs of terms of two. -/
theorem proportional_queries :
    (∀ (n : Nat) (grades : List Nat) (mv : Multivector α), n ≤ maxDimension → mv.InRange n →
      ∃ found stats, termsOfGrades n grades mv = some (found, stats) ∧
        stats.Proportional n mv.size) ∧
    (∀ (S : Scalars α) (images : List (Terms α)) (mv : Multivector α),
      images.length ≤ maxDimension → mv.InRange images.length →
      ∃ sum stats, sumOfImages S images mv = some (sum, stats) ∧
        stats.Proportional images.length mv.size) ∧
    ∀ (k : Product) (sig : Signature) (a b : Multivector α) (f : ω → SignedPair α → ω) (init : ω),
      a.InRange sig.dimension → b.InRange sig.dimension →
      ∃ acc stats, foldPairs k sig a b f init = some (acc, stats) ∧
        stats.Proportional sig.dimension (a.size * b.size) :=
  ⟨fun n grades mv hn h => ⟨_, _, termsOfGrades_eq hn grades h,
      proportional_termsOfGrades n grades mv⟩,
    fun S images mv hn h => ⟨_, _, sumOfImages_eq S hn h, proportional_sumOfImages S images mv⟩,
    fun k sig a b f init ha hb => ⟨_, _, foldPairs_eq k sig ha hb f init,
      proportional_foldPairs k sig a b f init⟩⟩

end Guarded

end GeometricAlgebra

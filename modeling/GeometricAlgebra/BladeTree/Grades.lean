import GeometricAlgebra.BladeTree.Walk
import GeometricAlgebra.Multivector.Basic

set_option autoImplicit false

/-! # The terms of chosen grades

The walk that finds the terms of a multivector whose grades are among the chosen ones. A node
carries the terms below it, ascending, so a subtree without terms is seen at its root; and as the
grade of a blade lies between the number of vectors already taken and that number plus the depth, a
subtree that misses all chosen grades is left out as well. -/

namespace GeometricAlgebra

namespace BladeTree

/-! ## Sets of grades -/

/-- A set of grades as a number, bit `g` for grade `g`. Grades above `maxDimension` have no blades
    and are left out. -/
def gradeMask (grades : List Nat) : Nat :=
  grades.foldl (fun mask g => if g ≤ maxDimension then mask ||| 1 <<< g else mask) 0

/-- Whether a set holds a grade from `low` to `low + width`. -/
def meetsGrades (mask low width : Nat) : Bool :=
  mask &&& (1 <<< (width + 1) - 1) <<< low != 0

/-! ## Terms below a node -/

/-- The terms below a child of a node, from the terms below the node. -/
def childTerms {α σ : Type} (node : Node σ) (taken : Bool) (terms : List (Nat × α)) :
    List (Nat × α) :=
  terms.filter fun t => t.1.testBit node.childVector == taken

/-- The terms of a multivector that belong to an `n`-dimensional algebra, ascending. -/
def rootTerms {α : Type} (n : Nat) (mv : Multivector α) : List (Nat × α) :=
  mv.toTerms.toList.filter fun t => t.1 < 1 <<< n

/-! ## The walk -/

/-- Collects terms, the last one first. -/
def gradeWalker (α : Type) (mask : Nat) : Walker (List (Nat × α)) (List (Nat × α)) where
  branches := 2
  descend found node branch :=
    let taken := branch % 2 == 1
    let below := childTerms node taken node.state
    if !meetsGrades mask (Blade.grade (node.childBlade taken)) node.childVector then (none, found)
    else if below.isEmpty then (none, found)
    else (some below, found)
  leaf found node :=
    if meetsGrades mask (Blade.grade node.blade) 0 then node.state ++ found else found

/-- The terms whose grade is chosen, ascending. -/
def termsOfGrades {α : Type} (n : Nat) (grades : List Nat) (mv : Multivector α) :
    List (Nat × α) × Stats :=
  let (found, stats) := walk n (gradeWalker α (gradeMask grades)) (rootTerms n mv) []
  (found.reverse, stats)

end BladeTree

end GeometricAlgebra

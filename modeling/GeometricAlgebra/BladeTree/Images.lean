import GeometricAlgebra.BladeTree.Grades
import GeometricAlgebra.Multivector.Terms
import GeometricAlgebra.Product

set_option autoImplicit false

/-! # Images of blades

A linear map of vectors extends to all multivectors: the image of a blade is the outer product of
the images of its vectors. The walk below applies such a map to all terms of a multivector at once.
On the way down from the last vector to the first, a child with the node's vector multiplies the
running product by the image of that vector from the left, so terms that share their last vectors
share that part of the work, and a product that has become zero ends its subtree. -/

namespace GeometricAlgebra

/-- The outer product of two sums of terms. -/
def Terms.wedge {α : Type} (S : Scalars α) (a b : Terms α) : Terms α :=
  Terms.dropZeros S (a.toList.foldl (fun acc s => b.toList.foldl (fun acc t =>
    if s.1 &&& t.1 = 0 then
      Terms.addSigned S acc (s.1 ^^^ t.1) (Product.reorderSign s.1 t.1) (S.mul s.2 t.2)
    else acc) acc) ∅)

namespace BladeTree

/-- What a walk knows about the images of the blades below a node. -/
structure ImageState (α : Type) where
  /-- The outer product of the images of the vectors taken so far. -/
  running : Terms α
  terms : List (Nat × α)

/-- Adds up the images of the terms, each multiplied by its coefficient. -/
def imageWalker {α : Type} (S : Scalars α) (images : List (Terms α)) :
    Walker (Terms α) (ImageState α) where
  branches := 2
  descend sum node branch :=
    let taken := branch % 2 == 1
    let terms := childTerms node taken node.state.terms
    if terms.isEmpty then (none, sum)
    else if taken then
      let image := images.getD node.childVector ∅
      let running := Terms.wedge S image node.state.running
      if image.isEmpty || running.isEmpty then (none, sum) else (some ⟨running, terms⟩, sum)
    else (some ⟨node.state.running, terms⟩, sum)
  leaf sum node :=
    match node.state.terms with
    | t :: _ => Terms.addScaled S sum node.state.running.toList t.2
    | [] => sum

/-- The image of a multivector under the map with the given images of the basis vectors. -/
def sumOfImages {α : Type} (S : Scalars α) (images : List (Terms α)) (mv : Multivector α) :
    Terms α × Stats :=
  walk images.length (imageWalker S images)
    ⟨(∅ : Terms α).insert 0 S.one, rootTerms images.length mv⟩ ∅

end BladeTree

end GeometricAlgebra

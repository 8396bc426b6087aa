import GeometricAlgebra.BladeTree.Grades
import GeometricAlgebra.Product

set_option autoImplicit false

/-! # The pairs of terms that a product keeps

The walk that finds every pair of a term of one multivector and a term of another whose product is
not zero. It goes over two trees at once, so a node has four children: the lowest bit of a child's
number says whether the vector is in the first blade, the next bit whether it is in the second.

The sign of a product is built on the way down, from the last vector to the first: a vector of the
second blade has to pass every later vector of the first blade, and a vector in both contributes its
square. A subtree is left out as soon as the product drops all pairs in it, a shared vector squares
to zero, or one of the multivectors has no terms there. -/

namespace GeometricAlgebra

namespace BladeTree

/-- What a walk knows about the pairs below a node. -/
structure PairState (α : Type) where
  /-- The vectors of the second blade so far. -/
  second : Nat
  /-- Whether the number of swaps so far is odd. -/
  odd : Bool
  /-- The product of the squares of the vectors shared so far. -/
  metric : Int
  /-- Whether the vectors of the first blade so far are all in the second. -/
  left : Bool
  /-- Whether the vectors of the second blade so far are all in the first. -/
  right : Bool
  firstTerms : List (Nat × α)
  secondTerms : List (Nat × α)

/-- The sign of the product, at a leaf. -/
def PairState.sign {α : Type} (s : PairState α) : Int := if s.odd then -s.metric else s.metric

/-- Whether a product drops every pair that has a vector in the blades told by `inFirst` and
    `inSecond`. -/
def dropsVector (k : Product) (inFirst inSecond : Bool) : Bool :=
  match k with
  | .outer => inFirst && inSecond
  | .scalar => inFirst != inSecond
  | .left => inFirst && !inSecond
  | .right => inSecond && !inFirst
  | _ => false

/-- Whether a product drops every pair of which neither blade is within the other. -/
def dropsApart (k : Product) : Bool := k == .fatDot || k == .hestenes

/-- Whether a product keeps a pair of blades that the way down has not dropped. -/
def keepsLeaf (k : Product) (a b : Nat) : Bool :=
  match k with
  | .hestenes => a != 0 && b != 0
  | .commutator => !Product.commute a b
  | .anticommutator => Product.commute a b
  | _ => true

/-- The state of a child, given whether the node's vector is in each of the two blades. -/
def descendPair {α : Type} (k : Product) (sig : Signature) (node : Node (PairState α))
    (inFirst inSecond : Bool) : Option (PairState α) :=
  let s := node.state
  let left := s.left && !(inFirst && !inSecond)
  let right := s.right && !(inSecond && !inFirst)
  let square := if inFirst && inSecond then (sig.square node.childVector).sign else 1
  let firstTerms := childTerms node inFirst s.firstTerms
  let secondTerms := childTerms node inSecond s.secondTerms
  if dropsVector k inFirst inSecond then none
  else if dropsApart k && !left && !right then none
  else if square = 0 then none
  else if firstTerms.isEmpty || secondTerms.isEmpty then none
  else
    some {
      second := if inSecond then s.second ||| node.childBit else s.second
      odd := s.odd != (inSecond && Blade.grade node.blade % 2 == 1)
      metric := s.metric * square
      left, right, firstTerms, secondTerms }

/-- A pair of terms with the sign of their product. -/
structure SignedPair (α : Type) where
  first : Nat × α
  second : Nat × α
  sign : Int

/-- Folds `f` over the pairs that the product keeps. -/
def pairWalker {α ω : Type} (k : Product) (sig : Signature) (f : ω → SignedPair α → ω) :
    Walker ω (PairState α) where
  branches := 4
  descend acc node branch :=
    (descendPair k sig node (branch % 2 == 1) (branch / 2 % 2 == 1), acc)
  leaf acc node :=
    match node.state.firstTerms, node.state.secondTerms with
    | first :: _, second :: _ =>
      if keepsLeaf k node.blade node.state.second then
        f acc ⟨first, second, node.state.sign⟩
      else acc
    | _, _ => acc

/-- Folds `f` over all pairs of a term of `a` and a term of `b` with a product that is not zero. -/
def foldPairs {α ω : Type} (k : Product) (sig : Signature) (a b : Multivector α)
    (f : ω → SignedPair α → ω) (init : ω) : ω × Stats :=
  walk sig.dimension (pairWalker k sig f)
    { second := 0, odd := false, metric := 1, left := true, right := true
      firstTerms := rootTerms sig.dimension a
      secondTerms := rootTerms sig.dimension b } init

end BladeTree

end GeometricAlgebra

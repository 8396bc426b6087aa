import GeometricAlgebra.BladeTree.Pairs
import GeometricAlgebra.Outermorphism

set_option autoImplicit false

/-! # Geometric algebras

An algebra is a signature with a record of arithmetic on coefficients. All operations on
multivectors are here; each first asks whether its operands belong to the algebra, and gives its
result in compact form, so no result holds a coefficient that is zero.

A product can go through all pairs of terms, or walk over the tree of blades and meet only the pairs
that the product keeps. Both give the same terms where the arithmetic is exact; they add them up in
different orders. -/

namespace GeometricAlgebra

/-- How a product finds the pairs of terms. -/
inductive Strategy where
  /-- Takes every pair. -/
  | pairwise
  /-- Walks over the tree of blades. -/
  | tree
  /-- Walks where the number of pairs makes it worth while. -/
  | auto
  deriving DecidableEq, Repr, Inhabited

namespace Strategy

/-- All strategies. -/
def all : List Strategy := [pairwise, tree, auto]

/-- The name of a strategy in texts. -/
def name : Strategy → String
  | pairwise => "pairwise"
  | tree => "gbt"
  | auto => "auto"

/-- The strategy of the given name. -/
def ofName? (s : String) : Option Strategy := all.find? (fun k => k.name == s)

/-- The number of pairs from which on a walk is worth while. -/
def treeThreshold : Nat := 256

/-- Whether to walk, for a number of pairs. -/
def usesTree (k : Strategy) (pairs : Nat) : Bool :=
  match k with
  | pairwise => false
  | tree => true
  | auto => treeThreshold ≤ pairs

end Strategy

/-- A geometric algebra over coefficients of type `α`. -/
structure Algebra (α : Type) where
  signature : Signature
  scalars : Scalars α
  strategy : Strategy := .auto

namespace Algebra

variable {α : Type} (A : Algebra α)

/-- The number of basis vectors. -/
def dimension : Nat := A.signature.dimension

/-- Refuses a multivector with a blade outside the algebra. -/
def validate (a : Multivector α) : Except Error Unit := a.validate A.dimension

/-! ## Products -/

/-- The sign of the product of two blades. -/
def productSign (k : Product) (a b : Nat) : Int :=
  if A.signature.isEuclidean then k.euclideanSign a b else k.sign A.signature a b

/-- Adds the product of two terms with the given sign. -/
def addProduct (sum : Terms α) (s t : Nat × α) (sign : Int) : Terms α :=
  Terms.addSigned A.scalars sum (s.1 ^^^ t.1) sign (A.scalars.mul s.2 t.2)

/-- The sum of the products of all pairs of terms. -/
def productOfPairs (k : Product) (a b : Multivector α) : Terms α :=
  let second := b.terms
  a.terms.foldl (fun sum s => second.foldl (fun sum t =>
    let sign := A.productSign k s.1 t.1
    if sign = 0 then sum else A.addProduct sum s t sign) sum) ∅

/-- The sum of the products of the pairs that a walk over the tree finds. -/
def productOfTree (k : Product) (a b : Multivector α) : Terms α :=
  (BladeTree.foldPairs k A.signature a b (fun sum pair =>
    A.addProduct sum pair.first pair.second pair.sign) ∅).1

/-- The product of two multivectors. -/
def product (k : Product) (a b : Multivector α) : Except Error (Multivector α) := do
  A.validate a
  A.validate b
  return Terms.compact A.scalars
    (if A.strategy.usesTree (a.size * b.size) then A.productOfTree k a b
    else A.productOfPairs k a b)

/-- The coefficient of the scalar blade. -/
def scalarPart (a : Multivector α) : α := (a.get? 0).getD A.scalars.zero

/-- The scalar product, as a scalar. -/
def scalarProduct (a b : Multivector α) : Except Error α := do
  return A.scalarPart (← A.product .scalar a b)

/-! ## Linear operations -/

def add (a b : Multivector α) : Except Error (Multivector α) := do
  A.validate a
  A.validate b
  return Terms.compact A.scalars (Terms.addAll A.scalars a.toTerms b)

def subtract (a b : Multivector α) : Except Error (Multivector α) := do
  A.validate a
  A.validate b
  return Terms.compact A.scalars (Terms.subtractAll A.scalars a.toTerms b)

def scale (a : Multivector α) (factor : α) : Except Error (Multivector α) := do
  A.validate a
  return Terms.compact A.scalars (Terms.addScaled A.scalars ∅ a.terms factor)

def negate (a : Multivector α) : Except Error (Multivector α) := do
  A.validate a
  return Terms.compact A.scalars (Terms.subtractAll A.scalars ∅ a)

/-- Whether two multivectors differ by zeros alone. -/
def areEqual (a b : Multivector α) : Except Error Bool := do
  return (← A.subtract a b).isEmpty

/-! ## Grades -/

/-- The terms of the given grades. -/
def gradePart (a : Multivector α) (grades : List Nat) : Except Error (Multivector α) := do
  A.validate a
  return Terms.compact A.scalars
    (.ofList (BladeTree.termsOfGrades A.dimension grades a).1)

/-- Multiplies every term by a sign that depends on its grade. -/
def mapGradeSign (signOf : Nat → Int) (a : Multivector α) : Except Error (Multivector α) := do
  A.validate a
  return Terms.compact A.scalars (a.terms.foldl (fun sum t =>
    Terms.addSigned A.scalars sum t.1 (signOf (Blade.grade t.1)) t.2) ∅)

/-- Reverses the order of vectors in every blade. -/
def reverse (a : Multivector α) : Except Error (Multivector α) :=
  A.mapGradeSign Grade.reverseSign a

/-- Negates every vector in every blade. -/
def gradeInvolution (a : Multivector α) : Except Error (Multivector α) :=
  A.mapGradeSign Grade.involutionSign a

/-- Reverses and negates the vectors in every blade. -/
def cliffordConjugate (a : Multivector α) : Except Error (Multivector α) :=
  A.mapGradeSign Grade.conjugateSign a

/-! ## Norm, duality and inverse -/

/-- The scalar product with the reverse. -/
def normSquared (a : Multivector α) : Except Error α := do
  A.scalarProduct a (← A.reverse a)

/-- The blade of all basis vectors. -/
def pseudoscalar : Multivector α := .ofBlade A.signature.pseudoscalar A.scalars.one

/-- The pseudoscalar times its own square, which is `1` or `-1` unless some vector squares to
    zero. -/
def pseudoscalarInverse : Except Error (Multivector α) :=
  if A.signature.isDegenerate then .error (.nullPseudoscalar A.signature.name)
  else
    let b := A.signature.pseudoscalar
    .ok (.ofBlade b (A.scalars.ofInt (Product.geometricSign A.signature b b)))

/-- The left contraction onto the inverse of the pseudoscalar. -/
def dual (a : Multivector α) : Except Error (Multivector α) := do
  A.product .left a (← A.pseudoscalarInverse)

/-- The left contraction onto the pseudoscalar. -/
def undual (a : Multivector α) : Except Error (Multivector α) := A.product .left a A.pseudoscalar

/-- Divides every coefficient. -/
def divideTerms (terms : List (Nat × α)) (divisor : α) : Except Error (Terms α) :=
  terms.foldlM (fun sum t => do return sum.insert t.1 (← A.scalars.div t.2 divisor)) ∅

/-- The reverse divided by the squared norm, the inverse of a product of vectors. -/
def versorInverse (a : Multivector α) : Except Error (Multivector α) := do
  let reversed ← A.reverse a
  let norm ← A.scalarProduct a reversed
  if A.scalars.isZero norm then .error .nullVersor
  else return Terms.compact A.scalars (← A.divideTerms reversed.terms norm)

/-! ## Maps -/

/-- The image under a map into the algebra. -/
def map (f : Outermorphism α) (a : Multivector α) : Except Error (Multivector α) :=
  if f.target ≠ A.dimension then .error (.dimensionMismatch A.dimension f.target)
  else f.map A.scalars a

end Algebra

end GeometricAlgebra

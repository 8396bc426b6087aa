import GeometricAlgebra.BladeTree.Images
import GeometricAlgebra.Elimination

set_option autoImplicit false

/-! # Outermorphisms

A linear map between the vectors of two algebras, extended to all multivectors so that it keeps
outer products: the image of a blade is the outer product of the images of its vectors. The map is
held as these images, one for each basis vector of the domain. -/

namespace GeometricAlgebra

/-- A linear map of vectors, extended to all multivectors. -/
structure Outermorphism (α : Type) where
  /-- The dimension of the algebra that it maps to. -/
  target : Nat
  /-- The images of the basis vectors, each a vector of the target. -/
  images : List (Terms α)

namespace Outermorphism

variable {α : Type}

/-- The dimension of the algebra that it maps from. -/
def domain (f : Outermorphism α) : Nat := f.images.length

/-! ## Building maps -/

/-- Refuses an image of basis vector `i` that is no vector of the target. -/
def validateImage (target i : Nat) (image : Multivector α) : Except Error Unit := do
  image.validate target
  match image.grades.find? (· != 1) with
  | some g => .error (.imageGrade i g)
  | none => .ok ()

/-- The map with the given images of the basis vectors. -/
def ofImages (domain target : Nat) (images : List (Multivector α)) :
    Except Error (Outermorphism α) := do
  Blade.validateDimension domain
  Blade.validateDimension target
  if images.length ≠ domain then .error (.imageCount domain images.length)
  else
    images.zipIdx.forM fun (image : Multivector α × Nat) => validateImage target image.2 image.1
    return ⟨target, images.map Multivector.toTerms⟩

variable (S : Scalars α)

/-- The map that leaves every vector as it is. -/
def identity (n : Nat) : Except Error (Outermorphism α) := do
  Blade.validateDimension n
  return ⟨n, (List.range n).map fun i => (∅ : Terms α).insert (Blade.ofVector i) S.one⟩

/-- The vector with the given coordinates, without those that are zero. -/
def ofColumn (target : Nat) (column : List α) : Except Error (Multivector α) := do
  Terms.ofOneGrade S (← Multivector.vectorIn target column).toTerms 1

/-- The map whose matrix has the given columns. -/
def ofColumns (target : Nat) (columns : List (List α)) : Except Error (Outermorphism α) := do
  ofImages columns.length target (← columns.mapM (ofColumn S target))

/-! ## Matrices -/

/-- The image of a basis vector. -/
def image (f : Outermorphism α) (i : Nat) : Except Error (Multivector α) :=
  match f.images[i]? with
  | some terms => .ok (.sparse terms)
  | none => .error (.imageIndex i f.domain)

/-- The matrix of the map: a row for each vector of the target, a column for each of the domain. -/
def matrix (f : Outermorphism α) : List (List α) :=
  (List.range f.target).map fun row =>
    f.images.map fun image => image.getD (Blade.ofVector row) S.zero

/-! ## Mapping -/

/-- The image of a blade: the outer product of the images of its vectors, from the first on. -/
def bladeTerms (f : Outermorphism α) (b : Nat) : Terms α :=
  (Blade.vectors b).foldl (fun running i =>
    if running.isEmpty then running else Terms.wedge S running (f.images.getD i ∅))
    ((∅ : Terms α).insert 0 S.one)

/-- The image of a basis blade. -/
def mapBlade (f : Outermorphism α) (b : Nat) : Except Error (Multivector α) := do
  Blade.validate f.domain b
  return Terms.compact S (f.bladeTerms S b)

/-- Adds a multiple of the image of a basis vector. -/
def addImage (f : Outermorphism α) (sum : Terms α) (term : Nat × α) : Except Error (Terms α) :=
  if Blade.grade term.1 ≠ 1 then .error (.notAVector (Blade.grade term.1))
  else .ok (Terms.addScaled S sum (f.images.getD term.1.log2 ∅).toList term.2)

/-- The image of a vector, as a sum of multiples of images of basis vectors. -/
def mapVector (f : Outermorphism α) (v : Multivector α) : Except Error (Multivector α) := do
  v.validate f.domain
  return Terms.compact S (← v.terms.foldlM (f.addImage S) ∅)

/-- The image of a multivector. -/
def map (f : Outermorphism α) (mv : Multivector α) : Except Error (Multivector α) := do
  mv.validate f.domain
  return Terms.compact S (BladeTree.sumOfImages S f.images mv).1

/-- The image of a multivector of one grade, in the form of that grade. -/
def mapKVector (f : Outermorphism α) (mv : Multivector α) (k : Nat) :
    Except Error (Multivector α) :=
  match mv.grades.find? (· != k) with
  | some g => .error (.otherGrade k g)
  | none => do
    mv.validate f.domain
    Terms.ofOneGrade S (BladeTree.sumOfImages S f.images mv).1 k

/-! ## Composition and inverse -/

/-- The map that applies `g` and then `f`. -/
def comp (f g : Outermorphism α) : Except Error (Outermorphism α) :=
  if g.target ≠ f.domain then .error (.dimensionMismatch f.domain g.target)
  else do
    ofImages g.domain f.target (← g.images.mapM fun image => f.mapVector S (.sparse image))

/-- Refuses a map between algebras of different dimensions. -/
def requireSquare (f : Outermorphism α) : Except Error Unit :=
  if f.domain ≠ f.target then .error (.dimensionMismatch f.domain f.target) else .ok ()

/-- What the map multiplies the pseudoscalar by. -/
def determinant (f : Outermorphism α) : Except Error α := do
  f.requireSquare
  let pseudoscalar := Blade.firstVectors f.domain
  return (f.bladeTerms S pseudoscalar).getD pseudoscalar S.zero

/-- The map that undoes this one. -/
def inverse (f : Outermorphism α) : Except Error (Outermorphism α) := do
  f.requireSquare
  let rows ← SquareMatrix.inverseOfRows S (f.matrix S)
  ofColumns S f.target ((List.range f.domain).map fun column =>
    rows.map fun row => row.getD column S.zero)

end Outermorphism

end GeometricAlgebra

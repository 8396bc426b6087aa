import GeometricAlgebra.Algebra

set_option autoImplicit false

/-! # Frames

A frame is a basis of vectors that need be neither orthogonal nor of unit size. Multivectors over a
frame have coefficients by outer products of frame vectors. A product maps its operands to the
orthonormal basis of the algebra, multiplies there, and maps the result back. -/

namespace GeometricAlgebra

/-- A basis of an algebra. -/
structure Frame (α : Type) where
  algebra : Algebra α
  /-- From coordinates over the frame to orthonormal ones. -/
  toOrthonormal : Outermorphism α
  /-- From orthonormal coordinates to those over the frame. -/
  ofOrthonormal : Outermorphism α

namespace Frame

variable {α : Type}

/-- The frame whose vectors are the images of the basis vectors under an invertible map. -/
def ofMap (A : Algebra α) (f : Outermorphism α) : Except Error (Frame α) :=
  if f.domain ≠ A.dimension then .error (.dimensionMismatch A.dimension f.domain)
  else if f.target ≠ A.dimension then .error (.dimensionMismatch A.dimension f.target)
  else do return ⟨A, f, ← f.inverse A.scalars⟩

/-- The frame of the given vectors. -/
def ofVectors (A : Algebra α) (vectors : List (Multivector α)) : Except Error (Frame α) := do
  ofMap A (← Outermorphism.ofImages A.dimension A.dimension vectors)

variable (F : Frame α)

/-- A multivector in orthonormal coordinates, from coordinates over the frame. -/
def toAlgebra (a : Multivector α) : Except Error (Multivector α) :=
  F.toOrthonormal.map F.algebra.scalars a

/-- A multivector in coordinates over the frame, from orthonormal ones. -/
def ofAlgebra (a : Multivector α) : Except Error (Multivector α) :=
  F.ofOrthonormal.map F.algebra.scalars a

/-- The product of two multivectors over the frame. -/
def product (k : Product) (a b : Multivector α) : Except Error (Multivector α) := do
  let a ← F.toAlgebra a
  let b ← F.toAlgebra b
  F.ofAlgebra (← F.algebra.product k a b)

/-- The coefficient of the scalar blade. -/
def scalarPart (a : Multivector α) : α := F.algebra.scalarPart a

/-- The scalar product, as a scalar. -/
def scalarProduct (a b : Multivector α) : Except Error α := do
  return F.scalarPart (← F.product .scalar a b)

/-- The scalar products of the frame vectors with each other. -/
def metric : Except Error (List (List α)) := do
  let vectors ← (List.range F.algebra.dimension).mapM F.toOrthonormal.image
  vectors.mapM fun v => vectors.mapM fun w => F.algebra.scalarProduct v w

end Frame

end GeometricAlgebra

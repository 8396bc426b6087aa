import GeometricAlgebra.Error

set_option autoImplicit false

/-! # Basis blades

A basis blade is an outer product of distinct basis vectors, so it is the set of these vectors. It
is written as the number whose bit `i` is set iff basis vector `i` takes part: the scalar blade is
`0`, the basis vectors are `1, 2, 4, …`, and the blade of vectors `0` and `2` is `5`. Vectors are
counted from zero here; only names and texts count them from one.

Algebras have at most `maxDimension` basis vectors, so every blade of an algebra is below
`1 <<< maxDimension`. -/

namespace GeometricAlgebra

/-- The largest number of basis vectors an algebra can have. -/
def maxDimension : Nat := 64

namespace Blade

/-- The number of basis vectors in a blade. -/
def grade (b : Nat) : Nat :=
  if b = 0 then 0 else b % 2 + grade (b / 2)
termination_by b

/-- The blade of basis vector `i` alone. -/
def ofVector (i : Nat) : Nat := 1 <<< i

/-- The blade of the first `n` basis vectors, and of all of them from `maxDimension` on. -/
def firstVectors (n : Nat) : Nat := 1 <<< min n maxDimension - 1

/-- The number of basis vectors an algebra must have to hold the blade: one more than the largest
    vector in it. -/
def requiredDimension (b : Nat) : Nat :=
  if b = 0 then 0 else b.log2 + 1

/-- The basis vectors of the blade whose bits are `b` shifted up by `i`, ascending. -/
def vectorsFrom (i b : Nat) : List Nat :=
  if b = 0 then []
  else if b % 2 = 1 then i :: vectorsFrom (i + 1) (b / 2)
  else vectorsFrom (i + 1) (b / 2)
termination_by b

/-- The basis vectors of a blade, ascending. -/
def vectors (b : Nat) : List Nat := vectorsFrom 0 b

/-! ## Range checks -/

/-- Refuses a dimension above `maxDimension`. -/
def validateDimension (n : Nat) : Except Error Unit :=
  if n > maxDimension then .error (.dimensionTooLarge n) else .ok ()

/-- Refuses a blade with a basis vector outside the first `n`. The dimension is checked first. -/
def validate (n : Nat) (b : Nat) : Except Error Unit := do
  validateDimension n
  if b < 1 <<< n then .ok () else .error (.bladeOutOfRange b n)

end Blade

end GeometricAlgebra

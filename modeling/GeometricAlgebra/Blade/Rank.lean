import GeometricAlgebra.Blade.Basic

set_option autoImplicit false

/-! # The rank of a blade within its grade

The blades of one grade, in ascending order, are numbered from zero; the number of a blade is its
rank. A blade with vectors `c₁ < c₂ < … < cₖ` has rank `C(c₁, 1) + C(c₂, 2) + … + C(cₖ, k)`, the
combinatorial number system, so ranks need no table. `unrank` goes back greedily: the largest
vector is the largest `c` with `C(c, k)` not above the rank, and so on down.

The rank of a bivector has a closed form of its own, `C(j, 2) + i` for vectors `i < j`. -/

namespace GeometricAlgebra

/-! ## Binomial coefficients -/

/-- The product `C(n, 1), C(n, 2), …` built up to `C(n, m)`: each step multiplies by the next factor
    of the numerator, in 128 bits, and then divides by the next one of the denominator. -/
def binomialProduct (n m : Nat) : Nat :=
  m.fold (fun i _ r => r * (n - i) % (1 <<< 128) / (i + 1)) 1

/-- The number of ways to choose `k` out of `n`, as a 64-bit word; none when `k` is above `n`. -/
def binomial (n k : Nat) : Nat :=
  if n < k then 0 else binomialProduct n (min k (n - k)) % (1 <<< 64)

namespace Blade

/-! ## Rank and blade -/

/-- The sum of `C(c, j)` over the vectors `c`, where `j` counts them up. -/
def rankOf : Nat → List Nat → Nat
  | _, [] => 0
  | j, c :: cs => binomial c j + rankOf (j + 1) cs

/-- The number of smaller blades of the same grade. -/
def rank (b : Nat) : Nat := rankOf 1 (vectors b)

/-- The last vector from `c` up, below `maxDimension`, that a blade of grade `j` and rank `r` can
    have on top. -/
def topVector (j r c : Nat) : Nat :=
  if c + 1 < maxDimension ∧ binomial (c + 1) j ≤ r then topVector j r (c + 1) else c
termination_by maxDimension - c

/-- The blade of the given grade and rank. -/
def unrank : Nat → Nat → Nat
  | 0, _ => 0
  | j + 1, r =>
    let c := topVector (j + 1) r j
    ofVector c ||| unrank j (r - binomial c (j + 1))

/-- The blade of the given grade and rank among those of an `n`-dimensional algebra. -/
def unrankIn (n grade index : Nat) : Except Error Nat := do
  validateDimension n
  if grade > n then .error (.gradeTooLarge grade n)
  else if index ≥ binomial n grade then
    .error (.indexOutOfRange index grade (binomial n grade))
  else .ok (unrank grade index)

/-- The blades of grade `k` of an `n`-dimensional algebra, ascending. -/
def ofGrade (n k : Nat) : List Nat :=
  (List.range (binomial n k)).map (unrank k)

/-! ## Bivectors -/

/-- The rank of the bivector of vectors `i` and `j`, in either order. -/
def bivectorRank (i j : Nat) : Nat :=
  max i j * (max i j - 1) / 2 + min i j

/-- The rank of the bivector of two vectors of an `n`-dimensional algebra. -/
def bivectorRankIn (n i j : Nat) : Except Error Nat := do
  validateDimension n
  if i = j then .error (.repeatedVector i)
  else if i ≥ n ∨ j ≥ n then .error (.vectorsOutOfRange i j n)
  else .ok (bivectorRank i j)

/-- Lowers an estimate of the larger vector until the bivectors below it are not above the rank. -/
def lowerVector (index : Nat) : Nat → Nat
  | 0 => 0
  | j + 1 => if (j + 1) * j / 2 > index then lowerVector index j else j + 1

/-- Raises an estimate of the larger vector until the bivectors up to it go beyond the rank. -/
def raiseVector (index j : Nat) : Nat :=
  if (j + 1) * j / 2 ≤ index then raiseVector index (j + 1) else j
termination_by index + 2 - j
decreasing_by
  rename_i h
  have : j ≤ index + 1 := by
    rcases j with _ | j
    · omega
    · have : (j + 1) * 2 ≤ (j + 1 + 1) * (j + 1) := by
        rw [Nat.mul_comm]
        exact Nat.mul_le_mul_right _ (by omega)
      omega
  omega

/-- The larger vector of the bivector of the given rank, corrected from an estimate of it. -/
def largerVector (index estimate : Nat) : Nat :=
  raiseVector index (lowerVector index estimate)

/-- The positive root of `j * (j - 1) / 2 = index`, rounded down. -/
def estimateVector (index : Nat) : Nat :=
  ((1.0 + Float.sqrt (1.0 + 8.0 * index.toFloat)) / 2.0).floor.toUInt64.toNat

/-- The two vectors of the bivector of the given rank, the smaller first, as 32-bit words, found
    from an estimate of the larger one. -/
def vectorsNear (index estimate : Nat) : Nat × Nat :=
  let j := largerVector index estimate
  ((index - j * (j - 1) / 2) % (1 <<< 32), j % (1 <<< 32))

/-- The two vectors of the bivector of the given rank. -/
def bivectorVectors (index : Nat) : Nat × Nat := vectorsNear index (estimateVector index)

/-- The two vectors of the bivector of the given rank in an `n`-dimensional algebra. -/
def bivectorVectorsIn (n index : Nat) : Except Error (Nat × Nat) := do
  validateDimension n
  if index ≥ binomial n 2 then .error (.bivectorIndexOutOfRange index n (binomial n 2))
  else .ok (bivectorVectors index)

end Blade

end GeometricAlgebra

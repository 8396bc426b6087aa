import GeometricAlgebra.Signature

set_option autoImplicit false

/-! # Products of basis blades

The product of two basis blades is zero or plus or minus one basis blade, that of the vectors in
exactly one of the two. The geometric product decides the sign: the swaps that sort the vectors of
the first blade and then of the second into ascending order, and the squares of the shared vectors.
The other products keep some pairs of blades and drop the rest. -/

namespace GeometricAlgebra

/-- The bilinear products. -/
inductive Product where
  /-- The scalar part of the geometric product. -/
  | scalar
  /-- The outer product. -/
  | outer
  /-- The geometric product. -/
  | geometric
  /-- The left contraction. -/
  | left
  /-- The right contraction. -/
  | right
  /-- The left or the right contraction, whichever applies. -/
  | fatDot
  /-- The fat dot product without scalar operands. -/
  | hestenes
  /-- The commutator, half of `ab - ba`. -/
  | commutator
  /-- The anticommutator, half of `ab + ba`. -/
  | anticommutator
  deriving DecidableEq, Repr, Inhabited

namespace Product

open Blade

/-! ## Names -/

/-- All products, in their usual order. -/
def all : List Product :=
  [scalar, outer, geometric, left, right, fatDot, hestenes, commutator, anticommutator]

/-- The short name of a product in texts. -/
def name : Product → String
  | scalar => "sp"
  | outer => "op"
  | geometric => "gp"
  | left => "lcp"
  | right => "rcp"
  | fatDot => "fdp"
  | hestenes => "hip"
  | commutator => "cp"
  | anticommutator => "acp"

/-- The product of exactly this name. -/
def ofName? (s : String) : Option Product :=
  all.find? (fun k => k.name == s)

/-- The product of this name, in upper or lower case. -/
def ofText (s : String) : Except Error Product :=
  match ofName? s.toLower with
  | some k => .ok k
  | none => .error (.unknownProduct s)

/-! ## Signs -/

/-- Whether all vectors of `a` are in `b`. -/
def within (a b : Nat) : Bool := a &&& b == a

/-- Whether a product keeps the pair of blades. The commutators also ask whether the two commute,
    which is left to `sign`. -/
def keeps : Product → Nat → Nat → Bool
  | geometric, _, _ => true
  | commutator, _, _ => true
  | anticommutator, _, _ => true
  | outer, a, b => a &&& b == 0
  | scalar, a, b => a == b
  | left, a, b => within a b
  | right, a, b => within b a
  | fatDot, a, b => within a b || within b a
  | hestenes, a, b => a != 0 && b != 0 && (within a b || within b a)

/-- How often a vector of `b` meets a vector of `a`, shifted down by one, two, … places. -/
def meetings (a b : Nat) : Nat :=
  if a = 0 then 0 else grade (a &&& b) + meetings (a / 2) b
termination_by a

/-- The number of swaps of neighbours that sort the vectors of `a` followed by those of `b`: the
    pairs of a vector of `a` and a smaller one of `b`. -/
def swaps (a b : Nat) : Nat := meetings (a / 2) b

/-- The sign of sorting the vectors of `a` followed by those of `b`. -/
def reorderSign (a b : Nat) : Int :=
  if swaps a b % 2 = 0 then 1 else -1

/-- The product of the squares of the shared vectors. -/
def metricSign (sig : Signature) (shared : Nat) : Int :=
  if shared &&& sig.null ≠ 0 then 0
  else if grade (shared &&& sig.negative) % 2 = 0 then 1
  else -1

/-- Whether two blades commute. The shared vectors contribute the same on both sides, so only the
    swaps matter. -/
def commute (a b : Nat) : Bool := reorderSign a b == reorderSign b a

/-- The sign of the geometric product. -/
def geometricSign (sig : Signature) (a b : Nat) : Int :=
  let metric := metricSign sig (a &&& b)
  if metric = 0 then 0 else metric * reorderSign a b

/-- Drops what a commutator or an anticommutator does not have. -/
def filterCommuting (k : Product) (a b : Nat) (s : Int) : Int :=
  match k with
  | commutator => if commute a b then 0 else s
  | anticommutator => if commute a b then s else 0
  | _ => s

/-- The sign of the product of two blades; the blade itself is `a ^^^ b`. -/
def sign (k : Product) (sig : Signature) (a b : Nat) : Int :=
  if keeps k a b then
    let s := geometricSign sig a b
    if s = 0 then 0 else filterCommuting k a b s
  else 0

/-- The sign of the product of two blades where every vector squares to `1`. -/
def euclideanSign (k : Product) (a b : Nat) : Int :=
  if keeps k a b then filterCommuting k a b (reorderSign a b) else 0

/-! ## Signed blades -/

/-- A basis blade with a sign; the sign `0` makes it zero. -/
structure SignedBlade where
  blade : Nat
  sign : Int
  deriving DecidableEq, Repr

def SignedBlade.isZero (s : SignedBlade) : Bool := s.sign == 0

/-- The product of two basis blades. -/
def ofBlades (k : Product) (sig : Signature) (a b : Nat) : SignedBlade :=
  ⟨a ^^^ b, sign k sig a b⟩

end Product

/-! ## Unary signs -/

namespace Grade

/-- The sign of reversing the vectors of a blade: `(-1) ^ (g * (g - 1) / 2)`. -/
def reverseSign (g : Nat) : Int := if g % 4 ≥ 2 then -1 else 1

/-- The sign of negating every vector of a blade: `(-1) ^ g`. -/
def involutionSign (g : Nat) : Int := if g % 2 = 1 then -1 else 1

/-- The sign of doing both: `(-1) ^ (g * (g + 1) / 2)`. -/
def conjugateSign (g : Nat) : Int := if g % 4 = 1 ∨ g % 4 = 2 then -1 else 1

end Grade

end GeometricAlgebra

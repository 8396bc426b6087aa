import GeometricAlgebra.Error
import GeometricAlgebra.Number

set_option autoImplicit false

/-! # Scalars

Coefficients of multivectors are never looked into: an operation that needs arithmetic is given a
record of it, `Scalars`. So the same definitions compute with floating-point numbers, with symbolic
polynomials and with exact numbers. No law is assumed of the record; where a theorem needs one, it
says so.

Numbers that can stand as coefficients form the class `Coefficient`. Every tolerance on such numbers
gives a record `Coefficient.approximate`, in which a number is zero iff its size is at most the
tolerance. -/

namespace GeometricAlgebra

/-! ## Arithmetic as a record -/

/-- Arithmetic on coefficients of type `α`. -/
structure Scalars (α : Type) where
  zero : α
  one : α
  ofInt : Int → α
  ofFloat : Float → α
  add : α → α → α
  sub : α → α → α
  neg : α → α
  mul : α → α → α
  /-- Fails on a divisor that is zero, or that there is no way to divide by. -/
  div : α → α → Except Error α
  isZero : α → Bool
  text : α → String
  /-- Multiplies by the sign of a product of blades. -/
  timesSign : α → Int → α
  /-- The size of a scalar, for the choice of a pivot, where scalars have one. -/
  magnitude : α → Option Float

namespace Scalars

/-- Whether a scalar differs from one by zero. -/
def isOne {α : Type} (S : Scalars α) (a : α) : Bool := S.isZero (S.sub a S.one)

end Scalars

/-! ## Numbers -/

/-- Numbers that can be coefficients: the four operations, comparisons, and a text. A comparison
    with a number that is not comparable is false. -/
class Coefficient (κ : Type) extends Add κ, Sub κ, Neg κ, Mul κ, Div κ where
  ofInt : Int → κ
  ofFloat : Float → κ
  toFloat : κ → Float
  /-- The number without its sign. -/
  magnitude : κ → κ
  le : κ → κ → Bool
  lt : κ → κ → Bool
  eq : κ → κ → Bool
  isFinite : κ → Bool
  text : κ → String

instance : Coefficient Float where
  ofInt := Float.ofInt
  ofFloat x := x
  toFloat x := x
  magnitude := Float.abs
  le x y := x ≤ y
  lt x y := x < y
  eq x y := x == y
  isFinite := Float.isFinite
  text := Number.plain

/-- The tolerance that is used where none is asked for. -/
def defaultTolerance : Float := 1e-12

namespace Coefficient

variable {κ : Type} [Coefficient κ]

/-- Arithmetic in which a number of size at most `ε` is zero. -/
def approximate (ε : κ) : Scalars κ where
  zero := ofInt 0
  one := ofInt 1
  ofInt := ofInt
  ofFloat := ofFloat
  add x y := x + y
  sub x y := x - y
  neg x := -x
  mul x y := x * y
  div x y := if le (magnitude y) ε then .error .zeroDivisor else .ok (x / y)
  isZero x := le (magnitude x) ε
  text := text
  timesSign x s := x * ofInt s
  magnitude x := some (toFloat (magnitude x))

/-- `approximate` for a tolerance that is finite and not negative. -/
def ofTolerance (ε : κ) : Except Error (Scalars κ) :=
  if !isFinite ε || lt ε (ofInt 0) then .error (.badTolerance (text ε))
  else .ok (approximate ε)

end Coefficient

/-- Floating-point numbers with the default tolerance. -/
def Scalars.floats : Scalars Float := Coefficient.approximate defaultTolerance

end GeometricAlgebra

import GeometricAlgebra.Decimal.Basic
import GeometricAlgebra.Decimal.Binary

set_option autoImplicit false

/-! # The shortest decimal that reads back

Of all decimals that are read back as a given floating-point number, the one with the fewest digits
is written, and of several with that many digits the nearest to the number. All reals between the
midpoints to the two neighbours read back as the number, and the midpoints themselves do iff its
mantissa is even.

The digits are searched for grid by grid, one digit, two digits, and so on. If any decimal of a grid
lies in the interval, then one of the two next to the number does. -/

namespace GeometricAlgebra

/-- Which of two equally near decimals is written. -/
inductive Tie where
  /-- The larger one. -/
  | up
  /-- The one whose last digit is even. -/
  | toEven
  deriving DecidableEq, Repr

namespace Decimal

/-- The factors `(p, q)` with `base ^ e = p / q`. -/
def powerRatio (base : Nat) (e : Int) : Nat × Nat :=
  (Nat.pow base e.toNat, Nat.pow base (-e).toNat)

/-- A binary number and the ends of its interval, in units of a quarter of its last place. The
    neighbour below a power of two is only half as far away. -/
structure Interval where
  low : Nat
  value : Nat
  high : Nat
  /-- Whether the ends belong to the interval. -/
  closed : Bool

/-- The interval of `mantissa * 2 ^ exponent`. -/
def Interval.around (mantissa : Nat) (exponent : Int) : Interval :=
  let narrow := mantissa = Binary.leastFull ∧ exponent > Binary.minExponent
  ⟨4 * mantissa - (if narrow then 1 else 2), 4 * mantissa, 4 * mantissa + 2, mantissa % 2 = 0⟩

/-- The exponent `k` with `10 ^ (k - 1) ≤ n / d < 10 ^ k`. -/
def decimalExponent (n d : Nat) : Int :=
  let k : Int := (Nat.toDigits 10 n).length - (Nat.toDigits 10 d).length
  let (p, q) := powerRatio 10 k
  if n * q < d * p then k else k + 1

/-- The multiple of `10 ^ e` that is written for the interval, if one of the two next to its value
    lies in it. The unit of the interval is `2 ^ u`. -/
def onGrid? (tie : Tie) (iv : Interval) (u e : Int) : Option Nat :=
  let (un, ud) := powerRatio 2 u
  let (gn, gd) := powerRatio 10 e
  let a := un * gd
  let b := gn * ud
  let inside (k : Nat) : Bool :=
    if iv.closed then iv.low * a ≤ k * b ∧ k * b ≤ iv.high * a
    else iv.low * a < k * b ∧ k * b < iv.high * a
  let k := iv.value * a / b
  let upper : Bool :=
    if 2 * iv.value * a = (2 * k + 1) * b then
      match tie with
      | .up => true
      | .toEven => k % 2 = 1
    else (2 * k + 1) * b < 2 * iv.value * a
  match inside k, inside (k + 1) with
  | true, true => some (if upper then k + 1 else k)
  | true, false => some k
  | false, true => some (k + 1)
  | false, false => none

/-- The shortest decimal that reads back as `mantissa * 2 ^ exponent`. Seventeen digits are always
    enough; zero is written as the digit zero. -/
def shortest (tie : Tie) (mantissa : Nat) (exponent : Int) : Decimal :=
  if mantissa = 0 then ⟨0, 0⟩ else
  let iv := Interval.around mantissa exponent
  let u := exponent - 2
  let (un, ud) := powerRatio 2 u
  let top := decimalExponent (iv.value * un) ud
  let found := (List.range 17).findSome? fun (n : Nat) =>
    let e := top - n - 1
    (onGrid? tie iv u e).map fun k => Decimal.mk k e
  (found.getD ⟨0, 0⟩).trimZeros 17

end Decimal

end GeometricAlgebra

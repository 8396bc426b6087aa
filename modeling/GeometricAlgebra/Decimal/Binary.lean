set_option autoImplicit false

/-! # Binary floating-point numbers as exact values

A finite number in the 64-bit binary format is `mantissa * 2 ^ exponent` for whole numbers: the
mantissa has at most 53 bits and the exponent is at least `-1074`. Here the bits are taken apart
into these two, and a quotient of whole numbers is rounded to the nearest number of the format, a
tie going to the even mantissa. Both work in exact arithmetic on whole numbers. -/

namespace GeometricAlgebra

/-- What the bits of a floating-point number stand for. -/
inductive Binary where
  | nan
  | infinite (negative : Bool)
  /-- The number `mantissa * 2 ^ exponent`, with its sign. -/
  | finite (negative : Bool) (mantissa : Nat) (exponent : Int)
  deriving DecidableEq, Repr

namespace Binary

/-- The least exponent, that of the numbers next to zero. -/
def minExponent : Int := -1074

/-- The mantissa of a power of two, the least one with all 53 bits. -/
def leastFull : Nat := 1 <<< 52

/-- Takes the bits of a number apart. -/
def ofBits (bits : Nat) : Binary :=
  let negative := bits >>> 63 % 2 == 1
  let field := bits >>> 52 % 2048
  let fraction := bits % leastFull
  if field = 2047 then
    if fraction = 0 then .infinite negative else .nan
  else if field = 0 then .finite negative fraction minExponent
  else .finite negative (leastFull + fraction) (field - 1 + minExponent)

/-- The exact value of a floating-point number. -/
def ofFloat (x : Float) : Binary := ofBits x.toBits.toNat

/-! ## Rounding -/

/-- The whole number nearest to `n / d`, the even one of two that are equally near. -/
def nearest (n d : Nat) : Nat :=
  let q := n / d
  let r := n % d
  if 2 * r < d then q
  else if d < 2 * r then q + 1
  else if q % 2 = 0 then q else q + 1

/-- The exponent with which the mantissa of `n / d` has 53 bits, or the least exponent where that
    one is smaller. -/
def exponentFor (n d : Nat) : Int :=
  let e : Int := n.log2 - d.log2
  let below := n <<< (-e).toNat < d <<< e.toNat
  max (if below then e - 53 else e - 52) minExponent

/-- The bits of the nonnegative number nearest to `n / d`; beyond the largest number, infinity.
    A mantissa that rounds up to 54 bits carries into the exponent, as it should. -/
def roundToBits (n d : Nat) : Nat :=
  let e := exponentFor n d
  let mantissa := nearest (n <<< (-e).toNat) (d <<< e.toNat)
  min ((e - minExponent).toNat * leastFull + mantissa) (2047 * leastFull)

end Binary

end GeometricAlgebra

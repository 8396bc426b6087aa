set_option autoImplicit false

/-! # Decimal numbers as digits

A decimal is a number of the form `digits * 10 ^ exponent`, before it is written. It can be written
in full, with as many zeros as it takes, or with an exponent after the first digit; a number format
chooses between the two. -/

namespace GeometricAlgebra

/-- The number `digits * 10 ^ exponent`. -/
structure Decimal where
  digits : Nat
  exponent : Int
  deriving DecidableEq, Repr

namespace Decimal

/-- The digits of a decimal, the first one first. -/
def chars (d : Decimal) : List Char := Nat.toDigits 10 d.digits

/-- The exponent that the first digit has. -/
def leadingExponent (d : Decimal) : Int := d.chars.length - 1 + d.exponent

/-- Moves zeros at the end of the digits into the exponent, at most as many as `limit`. -/
def trimZeros : (limit : Nat) → Decimal → Decimal
  | 0, d => d
  | limit + 1, d =>
    if d.digits % 10 = 0 then trimZeros limit ⟨d.digits / 10, d.exponent + 1⟩ else d

/-- Written in full: no exponent, and a point only before a fraction. -/
def plain (d : Decimal) : String :=
  let places := (-d.exponent).toNat
  let digits := d.chars ++ List.replicate d.exponent.toNat '0'
  let padded := List.replicate (places + 1 - digits.length) '0' ++ digits
  let whole := padded.take (padded.length - places)
  let fraction := padded.drop (padded.length - places)
  String.ofList (if fraction.isEmpty then whole else whole ++ '.' :: fraction)

/-- Written in full with at least one digit after the point. -/
def plainWithFraction (d : Decimal) : String :=
  if d.exponent < 0 then d.plain else d.plain ++ ".0"

/-- Written with one digit before the point and a signed exponent. -/
def scientific (d : Decimal) : String :=
  let fraction := d.chars.drop 1
  let point := if fraction.isEmpty then [] else ['.']
  let e := d.leadingExponent
  String.ofList (d.chars.take 1 ++ point ++ fraction) ++ (if e < 0 then "e-" else "e+")
    ++ toString e.natAbs

end Decimal

end GeometricAlgebra

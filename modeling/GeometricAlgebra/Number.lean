import GeometricAlgebra.Decimal.Read

set_option autoImplicit false

/-! # How numbers are written

Two formats write floating-point numbers. Texts for people, `plain`, never use an exponent and write
both zeros as `0`. The interchange format, `json`, keeps the sign of zero, marks every number as one
with a fraction or an exponent, and writes `null` for what is no number. Both write the shortest
decimal that reads back; of two equally near ones the former takes the larger, the latter the
even one. -/

namespace GeometricAlgebra

namespace Number

/-- The text of a number in full, with the sign of zero. -/
def full (x : Float) : String :=
  match Binary.ofFloat x with
  | .nan => "NaN"
  | .infinite negative => if negative then "-inf" else "inf"
  | .finite negative m e => (if negative then "-" else "") ++ (Decimal.shortest .up m e).plain

/-- The text of a coefficient. -/
def plain (x : Float) : String :=
  if x == 0 then "0" else full x

/-- The least exponent of the first digit that is still written without an exponent. -/
def minPlainExponent : Int := -5

/-- The largest exponent of the first digit that is still written without an exponent. -/
def maxPlainExponent : Int := 15

/-- The number of the interchange format. -/
def json (x : Float) : String :=
  match Binary.ofFloat x with
  | .nan => "null"
  | .infinite _ => "null"
  | .finite negative m e =>
    let d := Decimal.shortest .toEven m e
    let isPlain := minPlainExponent ≤ d.leadingExponent ∧ d.leadingExponent ≤ maxPlainExponent
    (if negative then "-" else "") ++ (if isPlain then d.plainWithFraction else d.scientific)

end Number

end GeometricAlgebra

import GeometricAlgebra.Decimal.Shortest

set_option autoImplicit false

/-! # Reading decimal numbers

A decimal literal is a sign, digits with at most one point among them, and an exponent; the sign and
the exponent may be left out, and one digit is enough. It is read as the nearest floating-point
number, with ties to the even mantissa: a number too large becomes infinite and one too small zero.
Beside literals, infinity and not-a-number can be read by name. -/

namespace GeometricAlgebra

namespace Decimal

/-- The digits `0` to `9`, of ASCII alone. -/
def isDigit (c : Char) : Bool := '0' ≤ c && c ≤ '9'

/-- The number that digits write in base ten. -/
def valueOf (digits : List Char) : Nat :=
  digits.foldl (fun n c => 10 * n + (c.toNat - '0'.toNat)) 0

/-- Splits a sign off; `true` stands for minus. -/
def splitSign : List Char → Bool × List Char
  | '-' :: rest => (true, rest)
  | '+' :: rest => (false, rest)
  | cs => (false, cs)

/-- Reads the whole of `cs` as an exponent after its mark. -/
def readExponent? (cs : List Char) : Option Int :=
  let (negative, digits) := splitSign cs
  if digits.isEmpty || !digits.all isDigit then none
  else if negative then some (-(valueOf digits : Int))
  else some (valueOf digits)

/-- Reads the whole of `cs` as a literal without a sign. -/
def readUnsigned? (cs : List Char) : Option Decimal :=
  let whole := cs.takeWhile isDigit
  let (fraction, rest) :=
    match cs.dropWhile isDigit with
    | '.' :: rest => (rest.takeWhile isDigit, rest.dropWhile isDigit)
    | rest => ([], rest)
  let decimal (e : Int) : Decimal := ⟨valueOf (whole ++ fraction), e - fraction.length⟩
  if whole.isEmpty && fraction.isEmpty then none
  else
    match rest with
    | [] => some (decimal 0)
    | c :: rest => if c = 'e' ∨ c = 'E' then (readExponent? rest).map decimal else none

/-! ## To floating point -/

/-- The bits of infinity. -/
def infinityBits : Nat := 2047 * Binary.leastFull

/-- The bits of the floating-point number nearest to a decimal. Decimals far outside the range of
    the format are told from their first digit's exponent, however large it is. -/
def toBits (d : Decimal) : Nat :=
  if d.digits = 0 then 0
  else if d.leadingExponent > 310 then infinityBits
  else if d.leadingExponent < -330 then 0
  else
    let (p, q) := powerRatio 10 d.exponent
    Binary.roundToBits (d.digits * p) q

/-- The floating-point number with the given sign and bits. -/
def signedFloat (negative : Bool) (bits : Nat) : Float :=
  Float.ofBits (UInt64.ofNat (if negative then bits + 1 <<< 63 else bits))

/-- Reads a text as a floating-point number: a literal, or a name of infinity or not-a-number in
    upper or lower case. -/
def readFloat? (text : String) : Option Float :=
  let (negative, rest) := splitSign text.toList
  let word := rest.map Char.toLower
  if word = "inf".toList ∨ word = "infinity".toList then some (signedFloat negative infinityBits)
  else if word = "nan".toList then some (0.0 / 0.0)
  else (readUnsigned? rest).map fun d => signedFloat negative d.toBits

end Decimal

end GeometricAlgebra

import GeometricAlgebra.Decimal.Read
import GeometricAlgebra.Text.Split
import GeometricAlgebra.Toml.Value

set_option autoImplicit false

/-! # TOML numbers, dates and words

The values that are written without quotes or brackets. Digits may have single underscores between
them; an integer has no zeros in front and fits 64 bits, and may be written with a base; a number
with a fraction or an exponent is floating point, and none is larger than the largest one. -/

namespace GeometricAlgebra

namespace Toml

/-! ## Integers -/

/-- Digits without the underscores between them. -/
def digits? (isDigit : Char → Bool) (cs : List Char) : Option (List Char) :=
  let groups := Text.parts '_' cs
  if groups.all fun group => !group.isEmpty && group.all isDigit then some groups.flatten else none

/-- The digits of a whole number, without zeros in front. -/
def whole? (cs : List Char) : Option (List Char) :=
  match digits? Decimal.isDigit cs with
  | some ('0' :: _ :: _) => none
  | r => r

/-- The base that a letter after a zero stands for. -/
def base? (c : Char) : Option Nat :=
  if c = 'x' then some 16 else if c = 'o' then some 8 else if c = 'b' then some 2 else none

/-- Whether a character is a digit of a base. -/
def isDigitOf (base : Nat) (c : Char) : Bool :=
  match Text.hexValue? c with
  | some n => n < base
  | none => false

/-- The number that digits of a base write. -/
def valueIn (base : Nat) (digits : List Char) : Nat :=
  digits.foldl (fun n c => base * n + (Text.hexValue? c).getD 0) 0

/-- The first number that does not fit a signed 64-bit word. -/
def integerBound : Nat := 1 <<< 63

/-- A number with a base in front. -/
def basedInteger? (base : Nat) (cs : List Char) : Option Int := do
  let value := valueIn base (← digits? (isDigitOf base) cs)
  if value < integerBound then return Int.ofNat value else none

/-- A number in base ten, with or without a sign. -/
def decimalInteger? (cs : List Char) : Option Int := do
  let (negative, rest) := Decimal.splitSign cs
  let value := Decimal.valueOf (← whole? rest)
  if negative then if value ≤ integerBound then return -(Int.ofNat value) else none
  else if value < integerBound then return Int.ofNat value
  else none

/-- An integer. -/
def integer? (cs : List Char) : Option Int :=
  match cs with
  | '0' :: c :: rest =>
    match base? c with
    | some base => basedInteger? base rest
    | none => decimalInteger? cs
  | _ => decimalInteger? cs

/-! ## Floating-point numbers -/

def isDigitOrUnderscore (c : Char) : Bool := Decimal.isDigit c || c == '_'

/-- Whether the text is an exponent with its mark. -/
def isExponent : List Char → Bool
  | c :: cs =>
    (c == 'e' || c == 'E') && (digits? Decimal.isDigit (Decimal.splitSign cs).2).isSome
  | [] => false

/-- Whether the text is a fraction, an exponent or both. -/
def isFraction : List Char → Bool
  | '.' :: cs =>
    let rest := cs.dropWhile isDigitOrUnderscore
    (digits? Decimal.isDigit (cs.takeWhile isDigitOrUnderscore)).isSome
      && (rest.isEmpty || isExponent rest)
  | cs => isExponent cs

/-- A floating-point number. -/
def float? (cs : List Char) : Option Float :=
  let (negative, rest) := Decimal.splitSign cs
  if rest = "inf".toList ∨ rest = "nan".toList then Decimal.readFloat? (String.ofList cs)
  else if (whole? (rest.takeWhile isDigitOrUnderscore)).isSome
      && isFraction (rest.dropWhile isDigitOrUnderscore) then
    (Decimal.readFloat? (String.ofList (cs.filter (· != '_')))).filter
      fun x => negative || x.isFinite
  else none

/-! ## Dates and times -/

/-- The number of two digits, if it lies within bounds. -/
def twoDigits? (low high : Nat) (a b : Char) : Option Nat :=
  if Decimal.isDigit a && Decimal.isDigit b then
    let n := Decimal.valueOf [a, b]
    if low ≤ n ∧ n ≤ high then some n else none
  else none

def isLeapYear (year : Nat) : Bool := year % 4 == 0 && (year % 100 != 0 || year % 400 == 0)

def daysIn (year month : Nat) : Nat :=
  if month = 2 then if isLeapYear year then 29 else 28
  else if month = 4 ∨ month = 6 ∨ month = 9 ∨ month = 11 then 30
  else 31

/-- The text after a date. -/
def afterDate? : List Char → Option (List Char)
  | a :: b :: c :: d :: '-' :: e :: f :: '-' :: g :: h :: rest => do
    if [a, b, c, d].all Decimal.isDigit then
      let month ← twoDigits? 1 12 e f
      let _ ← twoDigits? 1 (daysIn (Decimal.valueOf [a, b, c, d]) month) g h
      return rest
    else none
  | _ => none

/-- The text after a time of day. -/
def afterTime? : List Char → Option (List Char)
  | a :: b :: ':' :: c :: d :: ':' :: e :: f :: rest => do
    let _ ← twoDigits? 0 23 a b
    let _ ← twoDigits? 0 59 c d
    let _ ← twoDigits? 0 60 e f
    match rest with
    | '.' :: cs =>
      if (cs.takeWhile Decimal.isDigit).isEmpty then none
      else return cs.dropWhile Decimal.isDigit
    | _ => return rest
  | _ => none

/-- Whether the text is the distance of a time from that of Greenwich, or nothing. -/
def isOffset : List Char → Bool
  | [] => true
  | ['Z'] => true
  | ['z'] => true
  | [sign, a, b, ':', c, d] =>
    (sign == '+' || sign == '-') && (twoDigits? 0 23 a b).isSome && (twoDigits? 0 59 c d).isSome
  | _ => false

def isDate (cs : List Char) : Bool := afterDate? cs == some []

/-- Whether the text is a date, a time, or both. -/
def isDateTime (cs : List Char) : Bool :=
  match afterDate? cs with
  | none => afterTime? cs == some []
  | some [] => true
  | some (c :: rest) =>
    (c == 'T' || c == 't' || c == ' ') &&
      match afterTime? rest with
      | some offset => isOffset offset
      | none => false

/-! ## All of them -/

/-- Whether a character can be in a number, a date or a word. -/
def isScalarChar (c : Char) : Bool :=
  c.isAlphanum || c == '_' || c == '+' || c == '-' || c == '.' || c == ':'

/-- The value that is written without quotes or brackets. -/
def scalar? (cs : List Char) : Option Toml :=
  if cs = "true".toList then some (.bool true)
  else if cs = "false".toList then some (.bool false)
  else if isDateTime cs then some (.dateTime (String.ofList cs))
  else ((float? cs).map Toml.float).or ((integer? cs).map Toml.integer)

end Toml

end GeometricAlgebra

import GeometricAlgebra.Number
import GeometricAlgebra.Text.Character

set_option autoImplicit false

/-! # JSON values

A value keeps its numbers and strings as they are written: a number as its characters, a string as
the characters between its quotes, escapes included. So a value that nobody asks for is never
interpreted, and what is asked for is interpreted as what it is asked for: a number as a count or as
a floating-point number, a string as a text or as a number.

This file holds the values, and the ways from texts and numbers to written strings and numbers and
back. -/

namespace GeometricAlgebra

/-- A JSON value, with numbers and strings as they are written. -/
inductive Json where
  | null
  | bool (value : Bool)
  | number (written : List Char)
  | string (written : List Char)
  | array (items : List Json)
  | object (members : List (List Char × Json))
  deriving Inhabited

namespace Json

/-! ## Strings -/

/-- The digits of a number below 16 that escapes are written with. -/
def hexDigit (n : Nat) : Char := Nat.digitChar n

/-- A character as it is written in a string. -/
def escapeChar (c : Char) : List Char :=
  if c = '"' then ['\\', '"']
  else if c = '\\' then ['\\', '\\']
  else if c = '\x08' then ['\\', 'b']
  else if c = '\t' then ['\\', 't']
  else if c = '\n' then ['\\', 'n']
  else if c = '\x0c' then ['\\', 'f']
  else if c = '\r' then ['\\', 'r']
  else if c.toNat < 0x20 then
    ['\\', 'u', '0', '0', hexDigit (c.toNat / 16), hexDigit (c.toNat % 16)]
  else [c]

/-- A text as it is written in a string. -/
def escape (text : List Char) : List Char := text.flatMap escapeChar

/-- The code unit that four hexadecimal digits write. -/
def codeUnit? (a b c d : Char) : Option Nat := do
  let high := (← Text.hexValue? a) * 16 + (← Text.hexValue? b)
  let low := (← Text.hexValue? c) * 16 + (← Text.hexValue? d)
  return high * 256 + low

/-- The character of an escape of a single letter. -/
def simpleEscape? (c : Char) : Option Char :=
  if c = '"' then some '"'
  else if c = '\\' then some '\\'
  else if c = '/' then some '/'
  else if c = 'b' then some '\x08'
  else if c = 'f' then some '\x0c'
  else if c = 'n' then some '\n'
  else if c = 'r' then some '\r'
  else if c = 't' then some '\t'
  else none

/-- Whether a code unit is the first half of a pair. -/
def isHighSurrogate (u : Nat) : Bool := 0xD800 ≤ u && u < 0xDC00

/-- Whether a code unit is the second half of a pair. -/
def isLowSurrogate (u : Nat) : Bool := 0xDC00 ≤ u && u < 0xE000

/-- The character of a pair of code units. -/
def pairChar (high low : Nat) : Char :=
  Char.ofNat (0x10000 + (high - 0xD800) * 0x400 + (low - 0xDC00))

/-- The text of a written string. Half of a pair without the other half has none. -/
def unescape? : List Char → Option (List Char)
  | [] => some []
  | '\\' :: 'u' :: a :: b :: c :: d :: rest => do
    let unit ← codeUnit? a b c d
    if isLowSurrogate unit then none
    else if isHighSurrogate unit then
      match rest with
      | '\\' :: 'u' :: e :: f :: g :: h :: rest =>
        let low ← codeUnit? e f g h
        if isLowSurrogate low then return pairChar unit low :: (← unescape? rest) else none
      | _ => none
    else return Char.ofNat unit :: (← unescape? rest)
  | '\\' :: c :: rest => do return (← simpleEscape? c) :: (← unescape? rest)
  | c :: rest => do return c :: (← unescape? rest)

/-- The JSON string of a text. -/
def text (s : String) : Json := .string (escape s.toList)

/-- The text of a JSON string. -/
def toText? : Json → Option String
  | .string written => (unescape? written).map String.ofList
  | _ => none

/-! ## Numbers -/

/-- The JSON number of a count. -/
def nat (n : Nat) : Json := .number (Nat.toDigits 10 n)

/-- The JSON number of an integer. -/
def int (n : Int) : Json :=
  .number (if n < 0 then '-' :: Nat.toDigits 10 n.natAbs else Nat.toDigits 10 n.natAbs)

/-- The JSON number of a floating-point number, and null for what has none. -/
def float (x : Float) : Json := if x.isFinite then .number (Number.json x).toList else .null

/-- Whether there are zeros in front of the digits. -/
def isPadded : List Char → Bool
  | '0' :: _ :: _ => true
  | _ => false

/-- The count that a number writes, if it is below the bound. -/
def natOf? (bound : Nat) (written : List Char) : Option Nat :=
  if written.isEmpty || isPadded written || !written.all Decimal.isDigit then none
  else if Decimal.valueOf written < bound then some (Decimal.valueOf written)
  else none

/-- The integer that a number writes, if it fits a signed word of `bits` bits. A zero with a sign is
    no integer. -/
def intOf? (bits : Nat) (written : List Char) : Option Int :=
  match written with
  | '-' :: digits =>
    (natOf? (1 <<< (bits - 1) + 1) digits).bind fun n => if n = 0 then none else some (-n)
  | digits => (natOf? (1 <<< (bits - 1)) digits).map Int.ofNat

/-- A JSON number as a count below the bound. -/
def toNat? (bound : Nat) : Json → Option Nat
  | .number written => natOf? bound written
  | _ => none

/-- A JSON number as an integer in a signed word of `bits` bits. -/
def toInt? (bits : Nat) : Json → Option Int
  | .number written => intOf? bits written
  | _ => none

/-- A JSON number as a floating-point number, unless it is too large for one. -/
def toFloat? : Json → Option Float
  | .number written =>
    (Decimal.readFloat? (String.ofList written)).filter fun x => x.isFinite
  | _ => none

end Json

end GeometricAlgebra

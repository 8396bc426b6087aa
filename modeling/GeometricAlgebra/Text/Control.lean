set_option autoImplicit false

/-! # Control characters in messages

A message may quote what a user has written, and is shown on a terminal. The characters that start a
sequence of commands for it, or that change what is already there, are written as escapes: those of
ASCII by two hexadecimal digits, those of the second set of controls by their code point. Line ends,
tabs and the other controls are left as they are. -/

namespace GeometricAlgebra

namespace Text

/-- The controls of ASCII that are escaped: bell, backspace, form feed, escape, delete. -/
def escapedControls : List Char := ['\x07', '\x08', '\x0c', '\x1b', '\x7f']

/-- A character as it is written in a message. -/
def showControl (c : Char) : List Char :=
  if escapedControls.contains c then
    ['\\', 'x', Nat.digitChar (c.toNat / 16), Nat.digitChar (c.toNat % 16)]
  else if 0x80 ≤ c.toNat ∧ c.toNat < 0xA0 then
    ['\\', 'u', '\x7b'] ++ Nat.toDigits 16 c.toNat ++ ['\x7d']
  else [c]

/-- A text as it is written in a message. -/
def showControls (text : String) : String := String.ofList (text.toList.flatMap showControl)

end Text

end GeometricAlgebra

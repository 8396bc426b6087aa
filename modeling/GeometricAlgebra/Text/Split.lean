import GeometricAlgebra.Text.Character

set_option autoImplicit false

/-! # Taking texts apart

Texts are read as lists of characters. This file holds what the readers share: white space around a
text, the parts of a list between separators, and the search for a piece of text. -/

namespace GeometricAlgebra

namespace Text

/-- The text without white space at its ends. -/
def trim (cs : List Char) : List Char :=
  ((cs.dropWhile isSpace).reverse.dropWhile isSpace).reverse

/-- The parts between separators; without a separator, the whole text is the one part. -/
def parts (separator : Char) : List Char → List (List Char)
  | [] => [[]]
  | c :: cs =>
    if c = separator then [] :: parts separator cs
    else
      match parts separator cs with
      | [] => [[c]]
      | part :: rest => (c :: part) :: rest

/-- Whether a piece of text occurs in a text. -/
def occursIn (piece : List Char) : List Char → Bool
  | [] => piece.isEmpty
  | c :: cs => piece.isPrefixOf (c :: cs) || occursIn piece cs

end Text

end GeometricAlgebra

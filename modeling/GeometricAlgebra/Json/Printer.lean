import GeometricAlgebra.Json.Basic

set_option autoImplicit false

/-! # Writing JSON

Two layouts. The compact one has no white space at all. The pretty one puts every item and every
member on a line of its own, two spaces deeper than what it is in; an array or object without any
stays on its line. -/

namespace GeometricAlgebra

namespace Json

/-- A written string between its quotes. -/
def quoted (written : List Char) : List Char := '"' :: written ++ ['"']

/-! ## Compact -/

mutual

/-- The characters of a value without white space. -/
def compactChars : Json → List Char
  | .null => "null".toList
  | .bool true => "true".toList
  | .bool false => "false".toList
  | .number written => written
  | .string written => quoted written
  | .array items => '[' :: compactItems items ++ [']']
  | .object members => '\x7b' :: compactMembers members ++ ['\x7d']

/-- The items of an array, between commas. -/
def compactItems : List Json → List Char
  | [] => []
  | [item] => compactChars item
  | item :: rest => compactChars item ++ ',' :: compactItems rest

/-- The members of an object, between commas. -/
def compactMembers : List (List Char × Json) → List Char
  | [] => []
  | [(name, value)] => quoted name ++ ':' :: compactChars value
  | (name, value) :: rest => quoted name ++ ':' :: compactChars value ++ ',' :: compactMembers rest

end

/-- The text of a value without white space. -/
def compact (j : Json) : String := String.ofList (compactChars j)

/-! ## Pretty -/

/-- The start of a line at the given depth. -/
def newLine (depth : Nat) : List Char := '\n' :: List.replicate (2 * depth) ' '

mutual

/-- The characters of a value that starts at the given depth. -/
def prettyChars (depth : Nat) : Json → List Char
  | .null => "null".toList
  | .bool true => "true".toList
  | .bool false => "false".toList
  | .number written => written
  | .string written => quoted written
  | .array [] => ['[', ']']
  | .array (item :: rest) =>
    '[' :: prettyItems (depth + 1) (item :: rest) ++ newLine depth ++ [']']
  | .object [] => ['\x7b', '\x7d']
  | .object (member :: rest) =>
    '\x7b' :: prettyMembers (depth + 1) (member :: rest) ++ newLine depth ++ ['\x7d']

/-- The items of an array, each on a line of its own. -/
def prettyItems (depth : Nat) : List Json → List Char
  | [] => []
  | [item] => newLine depth ++ prettyChars depth item
  | item :: rest => newLine depth ++ prettyChars depth item ++ ',' :: prettyItems depth rest

/-- The members of an object, each on a line of its own. -/
def prettyMembers (depth : Nat) : List (List Char × Json) → List Char
  | [] => []
  | [(name, value)] => newLine depth ++ quoted name ++ ':' :: ' ' :: prettyChars depth value
  | (name, value) :: rest =>
    newLine depth ++ quoted name ++ ':' :: ' ' :: prettyChars depth value
      ++ ',' :: prettyMembers depth rest

end

/-- The text of a value over several lines. -/
def pretty (j : Json) : String := String.ofList (prettyChars 0 j)

end Json

end GeometricAlgebra

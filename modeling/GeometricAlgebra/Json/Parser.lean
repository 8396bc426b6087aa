import GeometricAlgebra.Json.Token

set_option autoImplicit false

/-! # Reading JSON

The second step of reading: a fold over the tokens. The reader holds the arrays and objects that are
still open, the innermost first, and what it expects next; a token that is not expected ends the
reading. So texts nested to any depth are read by one loop. -/

namespace GeometricAlgebra

namespace Json

/-- An array or object that is still open, with what it holds so far, the last first. -/
inductive Open where
  /-- An array. -/
  | array (items : List Json)
  /-- An object, with the name of the member whose value comes next. -/
  | object (members : List (List Char × Json)) (name : List Char)

/-- What a reader expects next. -/
inductive Expected where
  /-- A value. -/
  | value
  /-- The first value of an array, or its end. -/
  | firstItem
  /-- The name of a member. -/
  | name (members : List (List Char × Json))
  /-- The first name of an object, or its end. -/
  | firstName
  /-- The colon after a name. -/
  | colon (members : List (List Char × Json)) (name : List Char)
  /-- What follows a value that is complete. -/
  | after (value : Json)

/-- A reading under way. -/
structure Reading where
  opened : List Open
  expected : Expected

namespace Reading

/-- Goes on after a complete value. -/
def complete (opened : List Open) (value : Json) : Reading := ⟨opened, .after value⟩

/-- Starts a value. -/
def startValue (opened : List Open) : Token → Option Reading
  | .null => some (complete opened .null)
  | .bool b => some (complete opened (.bool b))
  | .number written => some (complete opened (.number written))
  | .string written => some (complete opened (.string written))
  | .openArray => some ⟨.array [] :: opened, .firstItem⟩
  | .openObject => some ⟨opened, .firstName⟩
  | _ => none

/-- Reads a token. -/
def step (r : Reading) (t : Token) : Option Reading :=
  match r.expected, t with
  | .value, t => startValue r.opened t
  | .firstItem, .closeArray => some (complete (r.opened.drop 1) (.array []))
  | .firstItem, t => startValue r.opened t
  | .firstName, .closeObject => some (complete r.opened (.object []))
  | .firstName, .string name => some ⟨r.opened, .colon [] name⟩
  | .name members, .string name => some ⟨r.opened, .colon members name⟩
  | .colon members name, .colon => some ⟨.object members name :: r.opened, .value⟩
  | .after value, t =>
    match r.opened, t with
    | .array items :: rest, .comma => some ⟨.array (value :: items) :: rest, .value⟩
    | .array items :: rest, .closeArray =>
      some (complete rest (.array (value :: items).reverse))
    | .object members name :: rest, .comma => some ⟨rest, .name ((name, value) :: members)⟩
    | .object members name :: rest, .closeObject =>
      some (complete rest (.object ((name, value) :: members).reverse))
    | _, _ => none
  | _, _ => none

/-- The value read, when everything is closed. -/
def result? (r : Reading) : Option Json :=
  match r.opened, r.expected with
  | [], .after value => some value
  | _, _ => none

end Reading

/-- The value whose tokens these are. -/
def ofTokens? (tokens : List Token) : Option Json :=
  (tokens.foldlM Reading.step ⟨[], .value⟩).bind Reading.result?

/-- The value that a text writes. -/
def ofText? (text : String) : Option Json := (Token.scan text.toList).bind ofTokens?

end Json

end GeometricAlgebra

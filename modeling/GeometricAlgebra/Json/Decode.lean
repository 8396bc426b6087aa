import GeometricAlgebra.Json.Basic

set_option autoImplicit false

/-! # Records, choices and maps in JSON

How typed data is taken out of a JSON value. A record is an object with its fields in any order, in
which unknown members do not matter, or an array of its fields in order. A choice is an object with
one member, named for the alternative; an alternative without data may be its name alone. A map is
an object whose names are the keys. -/

namespace GeometricAlgebra

namespace Json

/-- The text of a member's name. -/
def nameText? (written : List Char) : Option String := (unescape? written).map String.ofList

/-! ## Records -/

/-- Puts the members of an object next to the names of the fields; a field may be missing, but none
    may occur twice. -/
def fieldsOfMembers? (names : List String) (members : List (List Char × Json)) :
    Option (List (Option Json)) := do
  let named ← members.mapM fun (m : List Char × Json) => do return (← nameText? m.1, m.2)
  names.mapM fun name =>
    match named.filter (fun (m : String × Json) => m.1 == name) with
    | [] => some none
    | [(_, value)] => some (some value)
    | _ => none

/-- The fields of a record, in the order of their names. -/
def fields? (names : List String) : Json → Option (List (Option Json))
  | .object members => fieldsOfMembers? names members
  | .array items =>
    if items.length ≤ names.length then
      some (items.map some ++ List.replicate (names.length - items.length) none)
    else none
  | _ => none

/-! ## Choices -/

/-- The name of an alternative without data. -/
def choice? : Json → Option String
  | .string written => nameText? written
  | .object [(name, .null)] => nameText? name
  | _ => none

/-- The name of an alternative and its data. -/
def choiceOf? : Json → Option (String × Json)
  | .object [(name, value)] => do return (← nameText? name, value)
  | _ => none

/-! ## Lists, maps and optional data -/

/-- The items of an array. -/
def listOf? {β : Type} (read : Json → Option β) : Json → Option (List β)
  | .array items => items.mapM read
  | _ => none

/-- The keys and values of a map whose keys are counts below the bound. -/
def mapOf? {β : Type} (bound : Nat) (read : Json → Option β) : Json → Option (List (Nat × β))
  | .object members => members.mapM fun (m : List Char × Json) => do
    return (← natOf? bound m.1, ← read m.2)
  | _ => none

/-- Data that null stands for when there is none. -/
def optional? {β : Type} (read : Json → Option β) : Json → Option (Option β)
  | .null => some none
  | j => (read j).map some

/-- The object with the given names and values. -/
def record (members : List (String × Json)) : Json :=
  .object (members.map fun (m : String × Json) => (escape m.1.toList, m.2))

/-- The object of a map. -/
def map {β : Type} (write : β → Json) (entries : List (Nat × β)) : Json :=
  .object (entries.map fun (e : Nat × β) => (Nat.toDigits 10 e.1, write e.2))

end Json

end GeometricAlgebra

import GeometricAlgebra.Toml.Scalar

set_option autoImplicit false

/-! # Records, choices and numbers in TOML

How typed data is taken out of a TOML value. A record is a table, in which unknown entries do not
matter, or an array of its fields in order, of which those left over do not matter; a date counts as
a record without fields. A choice without data is its name, or a table with this name for an empty
value. Whole numbers stand for floating-point numbers as well. A table may stand for a date, by the
name of its first entry, and is then nothing else. -/

namespace GeometricAlgebra

namespace Toml

/-! ## Numbers -/

/-- A count below the bound. -/
def toNat? (bound : Nat) : Toml → Option Nat
  | .integer n => if 0 ≤ n ∧ n < bound then some n.toNat else none
  | _ => none

/-- An integer in a signed word of `bits` bits. -/
def toInt? (bits : Nat) : Toml → Option Int
  | .integer n =>
    let bound : Int := Int.ofNat (1 <<< (bits - 1))
    if -bound ≤ n ∧ n < bound then some n else none
  | _ => none

def toFloat? : Toml → Option Float
  | .integer n => some (Float.ofInt n)
  | .float x => some x
  | _ => none

/-! ## Lists, records and choices -/

/-- The items of an array, or the tables of a double header. -/
def toList? : Toml → Option (List Toml)
  | .array items => some items
  | .tables elements => some (elements.map (Toml.table .header))
  | _ => none

def listOf? {β : Type} (read : Toml → Option β) (t : Toml) : Option (List β) := do
  (← t.toList?).mapM read

/-- The fields of a record, in the order of their names. -/
def fields? (names : List String) : Toml → Option (List (Option Toml))
  | .table _ entries => some (names.map fun name => entries.lookup name)
  | .dateTime _ => some (names.map fun _ => none)
  | t => do
    let items ← t.toList?
    return (List.range names.length).map fun i => items[i]?

/-- Whether a value holds nothing. -/
def isVoid : Toml → Bool
  | .array items => items.isEmpty
  | .table _ entries => entries.isEmpty
  | .tables elements => elements.isEmpty
  | _ => false

/-- The name of an alternative without data. -/
def choice? : Toml → Option String
  | .string name => some name
  | .table _ [(name, value)] => if value.isVoid then some name else none
  | _ => none

/-! ## Tables for dates -/

/-- The name of the first entry of a table that stands for a date. -/
def dateName : String := "$__toml_private_datetime"

/-- Whether the first entry says that the table stands for a date. -/
def namesDate (entries : Entries) : Bool :=
  entries.head?.any fun (e : String × Toml) => e.1 == dateName

/-- Whether the only entry is a string that writes a date. -/
def isDateTable : Entries → Bool
  | [(name, .string written)] => name == dateName && isDateTime written.toList
  | _ => false

mutual

/-- Whether each table in a value that has the name of a date holds one. -/
def datesHold : Toml → Bool
  | .array items => datesHoldInItems items
  | .table _ entries => isDateTable entries || (!namesDate entries && datesHoldInEntries entries)
  | .tables elements => datesHoldInElements elements
  | _ => true

/-- The rule for the items of an array. -/
def datesHoldInItems : List Toml → Bool
  | [] => true
  | item :: items => datesHold item && datesHoldInItems items

/-- The rule for the values of a table. -/
def datesHoldInEntries : Entries → Bool
  | [] => true
  | (_, value) :: entries => datesHold value && datesHoldInEntries entries

/-- The rule for the tables of a double header. -/
def datesHoldInElements : List Entries → Bool
  | [] => true
  | entries :: elements =>
    (isDateTable entries || (!namesDate entries && datesHoldInEntries entries))
      && datesHoldInElements elements

end

end Toml

end GeometricAlgebra

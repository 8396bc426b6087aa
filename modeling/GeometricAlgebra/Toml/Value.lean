set_option autoImplicit false

/-! # TOML values

A configuration is a table of named values. How a table came about decides what may still be added
to it: the header `[a.b]` opens `a.b` and makes `a` a parent if there was none, a dotted key `a.b =
1` makes `a` as well, and a table in braces is complete where it stands. This file holds the values
and the rules of adding to tables. A table keeps its entries in the order of the text; a parent
takes its place among them when a header opens it. -/

namespace GeometricAlgebra

/-- What brought a table into being. -/
inductive Toml.Origin where
  /-- A header of its own. -/
  | header
  /-- The header of a table further down. -/
  | parent
  /-- A dotted key. -/
  | dotted
  /-- Braces. -/
  | inline
  deriving DecidableEq, Repr

/-- A value of a configuration. -/
inductive Toml where
  | string (value : String)
  | integer (value : Int)
  | float (value : Float)
  | bool (value : Bool)
  /-- A date, a time, or both, as written. -/
  | dateTime (written : String)
  | array (items : List Toml)
  | table (origin : Toml.Origin) (entries : List (String × Toml))
  /-- The tables of a header in double brackets. -/
  | tables (elements : List (List (String × Toml)))
  deriving Inhabited

namespace Toml

/-- The entries of a table. -/
abbrev Entries := List (String × Toml)

namespace Entries

/-- Gives a name that is present another value. -/
def replace (entries : Entries) (name : String) (value : Toml) : Entries :=
  entries.map fun (e : String × Toml) => if e.1 == name then (name, value) else e

/-- Changes the last of the elements. -/
def changeLast (change : Entries → Option Entries) (elements : List Entries) :
    Option (List Entries) := do
  let last ← elements.getLast?
  return elements.dropLast ++ [← change last]

/-- Changes the table that a header's path leads to. Tables on the way that do not exist are made,
    and of the tables of a double header the last one counts. -/
def changeAt (change : Entries → Option Entries) : List String → Entries → Option Entries
  | [], entries => change entries
  | name :: path, entries =>
    match entries.lookup name with
    | none => do return entries ++ [(name, .table .parent (← changeAt change path []))]
    | some (.table .inline _) => none
    | some (.table origin inner) => do
      return entries.replace name (.table origin (← changeAt change path inner))
    | some (.tables elements) => do
      return entries.replace name (.tables (← changeLast (changeAt change path) elements))
    | some _ => none

/-- Opens a table by its header. A table can be opened once, and not after a dotted key has made
    it. It becomes the last entry, also where it has been a parent before. -/
def openTable (name : String) (entries : Entries) : Option Entries :=
  let others := entries.filter fun (e : String × Toml) => e.1 != name
  match entries.lookup name with
  | none => some (others ++ [(name, .table .header [])])
  | some (.table .parent inner) => some (others ++ [(name, .table .header inner)])
  | some _ => none

/-- Opens one more of the tables of a double header. -/
def openElement (name : String) (entries : Entries) : Option Entries :=
  match entries.lookup name with
  | none => some (entries ++ [(name, .tables [[]])])
  | some (.tables elements) => some (entries.replace name (.tables (elements ++ [[]])))
  | some _ => none

/-- Adds a value under a dotted key with the given path before its last name. The key may add to a
    table that a dotted key has made, and pass through a parent on its way to one. -/
def insert (name : String) (value : Toml) : (path : List String) → Entries → Option Entries
  | [], entries =>
    if (entries.lookup name).isSome then none else some (entries ++ [(name, value)])
  | first :: path, entries =>
    match entries.lookup first with
    | none => do return entries ++ [(first, .table .dotted (← insert name value path []))]
    | some (.table .dotted inner) => do
      return entries.replace first (.table .dotted (← insert name value path inner))
    | some (.table .parent inner) =>
      if path.isEmpty then none
      else do return entries.replace first (.table .parent (← insert name value path inner))
    | some (.tables elements) =>
      if path.isEmpty then none
      else do
        return entries.replace first (.tables (← changeLast (insert name value path) elements))
    | some _ => none

end Entries

end Toml

end GeometricAlgebra

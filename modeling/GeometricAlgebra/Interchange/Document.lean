import GeometricAlgebra.Blade.Name
import GeometricAlgebra.Interchange.Forms
import GeometricAlgebra.Json.Parser
import GeometricAlgebra.Json.Printer

set_option autoImplicit false

/-! # Interchange documents

Multivectors go from one program to another as documents: a version, a signature, and terms with the
blade of each both as a number and by name. A document is written from a multivector that belongs to
the algebra. It is read back only if all of it is consistent: the version is known, every blade is
of the algebra and fits its name, and none occurs twice. Terms that are exactly zero are dropped on
reading, and no others, however small. -/

namespace GeometricAlgebra

/-- A term of a document. -/
structure Entry (κ : Type) where
  blade : Nat
  /-- The name of the blade, which may be left out. -/
  name? : Option String
  value : κ

/-- A multivector with its algebra, on its way between programs. -/
structure Document (κ : Type) where
  version : String
  signature : Signature
  entries : List (Entry κ)

namespace Document

variable {κ : Type}

/-- The version that is written and read. -/
def currentVersion : String := "1"

/-- The document of a multivector. -/
def ofMultivector (sig : Signature) (mv : Multivector κ) : Except Error (Document κ) := do
  mv.validate sig.dimension
  return ⟨currentVersion, sig, mv.terms.map fun t => ⟨t.1, some (Blade.name t.1), t.2⟩⟩

/-- Refuses an entry whose name is that of another blade. -/
def checkName (e : Entry κ) : Except Error Unit :=
  match e.name? with
  | none => .ok ()
  | some name => do
    if (← Blade.ofText name.toList) ≠ e.blade then .error (.bladeMismatch name e.blade)
    else return ()

/-- Adds an entry to the terms read so far. -/
def addEntry (sig : Signature) (terms : Terms κ) (e : Entry κ) : Except Error (Terms κ) := do
  sig.validateBlade e.blade
  checkName e
  if terms.contains e.blade then .error (.duplicateTerm e.blade)
  else return terms.insert e.blade e.value

/-- The multivector of a document, with its algebra. -/
def toMultivector [Coefficient κ] (d : Document κ) : Except Error (Signature × Multivector κ) :=
  if d.version ≠ currentVersion then .error (.unsupportedVersion d.version)
  else do
    let terms ← d.entries.foldlM (addEntry d.signature) ∅
    return (d.signature, Terms.compact (Coefficient.approximate (Coefficient.ofInt 0)) terms)

/-! ## JSON -/

/-- An entry without a name has no member for it. -/
def entryToJson (e : Entry Float) : Json :=
  let name := match e.name? with
    | some name => [("blade", Json.text name)]
    | none => []
  .record (("id", .nat e.blade) :: name ++ [("value", .float e.value)])

def entryOfJson? (j : Json) : Option (Entry Float) := do
  match ← j.fields? ["id", "blade", "value"] with
  | [some b, name, some value] =>
    let name? ← (name.getD .null).optional? Json.toText?
    return ⟨← b.toNat? longBound, name?, ← value.toFloat?⟩
  | _ => none

def toJson (d : Document Float) : Json :=
  .record [("version", .text d.version), ("signature", d.signature.toJson),
    ("terms", .array (d.entries.map entryToJson))]

def ofJson? (j : Json) : Option (Document Float) := do
  match ← j.fields? ["version", "signature", "terms"] with
  | [some version, some sig, terms] =>
    let entries ← (terms.getD (.array [])).listOf? entryOfJson?
    return ⟨← version.toText?, ← Signature.ofJson? sig, entries⟩
  | _ => none

end Document

/-! ## Texts -/

namespace Interchange

/-- The text of a multivector with its algebra. -/
def write (sig : Signature) (mv : Multivector Float) : Except Error String := do
  return (← Document.ofMultivector sig mv).toJson.pretty

/-- The multivector of a text, with its algebra. -/
def read (text : String) : Except Error (Signature × Multivector Float) :=
  match (Json.ofText? text).bind Document.ofJson? with
  | none => .error .malformedJson
  | some d => d.toMultivector

end Interchange

end GeometricAlgebra

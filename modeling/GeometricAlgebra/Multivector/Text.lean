import GeometricAlgebra.Blade.Name
import GeometricAlgebra.Multivector.Terms

set_option autoImplicit false

/-! # Multivectors as text

Two texts, one for each direction. A multivector is written as a sum, `1 + 2 e1 - 0.5 e1^e3`, by
grade and then by blade, without its zeros. It is read as a list of blades with coefficients, `1=1,
e1=2, e1^e3=-0.5`, in which a blade may occur more than once. -/

namespace GeometricAlgebra

/-! ## Writing -/

namespace Terms

/-- Whether a coefficient is a sum, which needs brackets in front of a blade. -/
def isCompound (coefficient : List Char) : Bool :=
  Text.occursIn " + ".toList coefficient || Text.occursIn " - ".toList coefficient

/-- The text of a term, from its blade and the text of its coefficient. -/
def termText (b : Nat) (coefficient : String) : String :=
  if b = 0 then coefficient
  else if coefficient = "1" then Blade.name b
  else if coefficient = "-1" then "-" ++ Blade.name b
  else if isCompound coefficient.toList then "(" ++ coefficient ++ ") " ++ Blade.name b
  else coefficient ++ " " ++ Blade.name b

/-- A term after the first one, joined by its sign. -/
def joined (term : String) : String :=
  match term.toList with
  | '-' :: rest => " - " ++ String.ofList rest
  | _ => " + " ++ term

/-- The order of terms in a text: by grade, then by blade. -/
def before (s t : Nat) : Bool :=
  Blade.grade s < Blade.grade t || (Blade.grade s == Blade.grade t && s ≤ t)

end Terms

namespace Multivector

variable {α : Type} (S : Scalars α)

/-- The terms that are not zero, in the order of a text. -/
def textTerms (mv : Multivector α) : List (Nat × α) :=
  (mv.terms.filter fun t => !S.isZero t.2).mergeSort fun s t => Terms.before s.1 t.1

/-- The multivector as a sum. -/
def toText (mv : Multivector α) : String :=
  match (mv.textTerms S).map fun t => Terms.termText t.1 (S.text t.2) with
  | [] => "0"
  | first :: rest => rest.foldl (fun out term => out ++ Terms.joined term) first

end Multivector

/-! ## Reading -/

namespace Terms

/-- The coefficient that a text writes. -/
def readCoefficient (text : List Char) : Except Error Float :=
  match Decimal.readFloat? (String.ofList text) with
  | none => .error (.badCoefficient (String.ofList text))
  | some x =>
    if x.isFinite then .ok x else .error (.infiniteCoefficient (String.ofList text))

/-- Whether a character can be in the name of a term. -/
def isNameCharacter (c : Char) : Bool := c != '=' && !Text.isSpace c

/-- The blade and the coefficient of a term, both without white space inside. -/
def splitTerm? (part : List Char) : Option (List Char × List Char) :=
  let name := part.takeWhile isNameCharacter
  match (part.dropWhile isNameCharacter).dropWhile Text.isSpace with
  | '=' :: rest =>
    let coefficient := rest.dropWhile Text.isSpace
    if name.isEmpty || coefficient.isEmpty || coefficient.any Text.isSpace then none
    else some (name, coefficient)
  | _ => none

/-- Reads a term. -/
def readTerm (part : List Char) : Except Error (Nat × Float) :=
  let part := Text.trim part
  match splitTerm? part with
  | none => .error (.malformedTerm (String.ofList part))
  | some (name, coefficient) => do
    let b ← Blade.ofText name
    return (b, ← readCoefficient coefficient)

/-- Reads a list of terms between commas. Nothing, or a lone zero, is the empty list. -/
def readList (text : String) : Except Error (List (Nat × Float)) :=
  let text := Text.trim text.toList
  if text = [] ∨ text = ['0'] then .ok [] else (Text.parts ',' text).mapM readTerm

end Terms

/-- Reads a multivector of an `n`-dimensional algebra from a list of terms; coefficients of the same
    blade are added up. -/
def Multivector.ofText {α : Type} (S : Scalars α) (n : Nat) (text : String) :
    Except Error (Multivector α) := do
  let terms ← Terms.readList text
  return Terms.compact S (← terms.foldlM (fun sum t => do
    Blade.validate n t.1
    return Terms.add S sum t.1 (S.ofFloat t.2)) ∅)

end GeometricAlgebra

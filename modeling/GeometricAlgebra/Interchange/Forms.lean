import GeometricAlgebra.Algebra
import GeometricAlgebra.Json.Decode

set_option autoImplicit false

/-! # JSON forms

How the values of the library are kept in JSON. Names stand for products, strategies and squares; a
signature is the list of its squares; a multivector is a choice between its four forms, with grades,
ranks and blades as they are held. Reading one checks its form alone: whether the terms belong to an
algebra is asked later. -/

namespace GeometricAlgebra

/-- The bound of 32-bit words. -/
def wordBound : Nat := 1 <<< 32

/-- The bound of 64-bit words. -/
def longBound : Nat := 1 <<< 64

/-! ## Names -/

def Product.toJson (k : Product) : Json := .text k.name

def Product.ofJson? (j : Json) : Option Product := j.choice?.bind Product.ofName?

def Strategy.toJson (k : Strategy) : Json := .text k.name

def Strategy.ofJson? (j : Json) : Option Strategy := j.choice?.bind Strategy.ofName?

def Square.toJson (q : Square) : Json := .text q.name

def Square.ofJson? (j : Json) : Option Square := j.choice?.bind Square.ofName?

/-! ## Signatures -/

namespace Signature

/-- The list of squares. -/
def toJson (sig : Signature) : Json := .array (sig.signs.map Json.int)

def ofJson? (j : Json) : Option Signature := do
  (ofSigns (← j.listOf? (Json.toInt? 32))).toOption

end Signature

/-! ## Multivectors -/

namespace Multivector

/-- Terms by rank or by blade. -/
def termsToJson (terms : Terms Float) : Json := .map Json.float terms.toList

def termsOfJson? (j : Json) : Option (Terms Float) :=
  (j.mapOf? longBound Json.toFloat?).map (Std.ExtTreeMap.ofList ·)

/-- The form that the multivector is held in. -/
def toJson (mv : Multivector Float) : Json :=
  match mv with
  | .scalar value => .record [("scalar", .float value)]
  | .kvector g terms =>
    .record [("kvector", .record [("grade", .nat g), ("terms", termsToJson terms)])]
  | .graded grades =>
    .record [("graded", .record [("grades", .map termsToJson grades.toList)])]
  | .sparse terms => .record [("sparse", .record [("terms", termsToJson terms)])]

def kvectorOfJson? (j : Json) : Option (Multivector Float) := do
  match ← j.fields? ["grade", "terms"] with
  | [some g, some terms] => return .kvector (← g.toNat? wordBound) (← termsOfJson? terms)
  | _ => none

def gradedOfJson? (j : Json) : Option (Multivector Float) := do
  match ← j.fields? ["grades"] with
  | [some grades] => return .graded (.ofList (← grades.mapOf? wordBound termsOfJson?))
  | _ => none

def sparseOfJson? (j : Json) : Option (Multivector Float) := do
  match ← j.fields? ["terms"] with
  | [some terms] => return .sparse (← termsOfJson? terms)
  | _ => none

def ofJson? (j : Json) : Option (Multivector Float) := do
  match ← j.choiceOf? with
  | ("scalar", x) => return .scalar (← x.toFloat?)
  | ("kvector", form) => kvectorOfJson? form
  | ("graded", form) => gradedOfJson? form
  | ("sparse", form) => sparseOfJson? form
  | _ => none

end Multivector

end GeometricAlgebra

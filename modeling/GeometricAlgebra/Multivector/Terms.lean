import GeometricAlgebra.Multivector.Basic
import GeometricAlgebra.Scalars

set_option autoImplicit false

/-! # Sums of terms

An operation that gives a multivector collects coefficients by blade and then picks a form for the
sum. This file holds both halves: the updates of a collection, each of which touches one blade or
applies one update to all terms of a multivector, and the forms, of which `compact` is the one that
operations use. Coefficients that the arithmetic calls zero stay while terms are collected, and are
dropped before a form is chosen. -/

namespace GeometricAlgebra

namespace Terms

variable {α : Type} (S : Scalars α)

/-! ## Updates -/

/-- Adds to the coefficient of a blade; without one, the blade takes the value itself. -/
def add (terms : Terms α) (b : Nat) (value : α) : Terms α :=
  terms.alter b fun
    | some old => some (S.add old value)
    | none => some value

/-- Subtracts from the coefficient of a blade; without one, the blade takes the negated value. -/
def subtract (terms : Terms α) (b : Nat) (value : α) : Terms α :=
  terms.alter b fun
    | some old => some (S.sub old value)
    | none => some (S.neg value)

/-- Adds a multiple of a value by the sign of a product of blades. The sign zero adds no term. -/
def addSigned (terms : Terms α) (b : Nat) (sign : Int) (value : α) : Terms α :=
  if sign = 0 then terms
  else if sign = 1 then add S terms b value
  else if sign = -1 then subtract S terms b value
  else add S terms b (S.timesSign value sign)

/-- Adds all terms of a multivector. -/
def addAll (terms : Terms α) (mv : Multivector α) : Terms α :=
  mv.terms.foldl (fun acc t => add S acc t.1 t.2) terms

/-- Subtracts all terms of a multivector. -/
def subtractAll (terms : Terms α) (mv : Multivector α) : Terms α :=
  mv.terms.foldl (fun acc t => subtract S acc t.1 t.2) terms

/-- Adds terms, each multiplied by a factor. -/
def addScaled (terms : Terms α) (added : List (Nat × α)) (factor : α) : Terms α :=
  added.foldl (fun acc t => add S acc t.1 (S.mul t.2 factor)) terms

/-- Drops the coefficients that are zero. -/
def dropZeros (terms : Terms α) : Terms α := terms.filter fun _ value => !S.isZero value

/-! ## Forms -/

/-- The number of terms of a grade. -/
def gradeCount (terms : Terms α) (g : Nat) : Nat :=
  (terms.keys.filter (fun b => Blade.grade b == g)).length

/-- Terms of the given grade, by rank. -/
def toRanks (terms : Terms α) (g : Nat) : Multivector α :=
  .ofRanks g (terms.toList.map fun t => (Blade.rank t.1, t.2))

/-- Terms by grade and rank. -/
def toGrades (terms : Terms α) : Multivector α :=
  .ofGrades (terms.toList.map fun t => (Blade.grade t.1, Blade.rank t.1, t.2))

/-- The least number of grades that is worth a form by grades. -/
def minGrades : Nat := 3

/-- Whether every grade that occurs fills at least half of its blades, in the smallest algebra that
    holds all terms. -/
def isDense (terms : Terms α) : Bool :=
  let n := Blade.requiredDimension (terms.maxKeyD 0)
  (Multivector.sparse terms).grades.all fun g => binomial n g ≤ 2 * gradeCount terms g

/-- The most specific form: a scalar, one grade, by grades where these are many and dense, and by
    blade otherwise. -/
def pack (terms : Terms α) : Multivector α :=
  match terms.toList with
  | [] => .zero
  | [(0, value)] => .scalar value
  | _ =>
    match (Multivector.sparse terms).grades with
    | [g] => toRanks terms g
    | grades => if minGrades ≤ grades.length && isDense terms then toGrades terms else .sparse terms

/-- The sum without its zeros, in the most specific form. -/
def compact (terms : Terms α) : Multivector α := pack (dropZeros S terms)

/-- The sum without its zeros, as terms of one grade. -/
def ofOneGrade (terms : Terms α) (k : Nat) : Except Error (Multivector α) :=
  let kept := dropZeros S terms
  match kept.keys.find? (fun b => Blade.grade b != k) with
  | some b => .error (.mixedGrade k (Blade.grade b))
  | none => .ok (toRanks kept k)

/-- The coefficient of the scalar blade. -/
def scalarPart (terms : Terms α) : α := terms.getD 0 S.zero

end Terms

end GeometricAlgebra

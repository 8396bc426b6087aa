import Std.Data.ExtTreeMap
import Std.Data.ExtTreeSet
import GeometricAlgebra.Blade.Rank

set_option autoImplicit false

/-! # Multivectors

A multivector is a sum of basis blades with coefficients. It is held in one of four forms, of which
an operation picks the most specific one that fits: a single scalar, the terms of one grade, terms
grade by grade, or terms by blade. Where the grade is known, the key of a term is the rank of its
blade within the grade.

All forms have the same view, `terms`: the blades with their coefficients. The key of a stored term
can be any number, as it may come from outside, so whether the blades belong to an algebra is asked
by `validate`, which compares ranks before it turns one into a blade. -/

namespace GeometricAlgebra

open Blade

/-- Coefficients by blade, or by rank within a grade, in ascending order. -/
abbrev Terms (α : Type) := Std.ExtTreeMap Nat α

/-- A sum of basis blades with coefficients. -/
inductive Multivector (α : Type) where
  /-- A multiple of the scalar blade. -/
  | scalar (value : α)
  /-- Terms of one grade, by rank. -/
  | kvector (grade : Nat) (terms : Terms α)
  /-- Terms of several grades, by grade and rank. -/
  | graded (grades : Std.ExtTreeMap Nat (Terms α))
  /-- Terms by blade. -/
  | sparse (terms : Terms α)

namespace Multivector

variable {α : Type}

/-! ## Building multivectors

Where two coefficients are given for one key, the later one counts. -/

/-- The multivector without terms. -/
def zero : Multivector α := sparse ∅

/-- Terms of one grade, from ranks with coefficients. -/
def ofRanks (grade : Nat) (terms : List (Nat × α)) : Multivector α :=
  kvector grade (.ofList terms)

/-- The first blades of a grade with the given coefficients. -/
def dense (grade : Nat) (coefficients : List α) : Multivector α :=
  ofRanks grade (coefficients.zipIdx.map fun c => (c.2, c.1))

/-- A vector, from its coordinates. -/
def vector (coordinates : List α) : Multivector α := dense 1 coordinates

/-- A bivector, from coefficients by rank. -/
def bivector (coefficients : List α) : Multivector α := dense 2 coefficients

/-- Stores a term under its grade and rank. -/
def insertGraded (grades : Std.ExtTreeMap Nat (Terms α)) (grade rank : Nat) (value : α) :
    Std.ExtTreeMap Nat (Terms α) :=
  grades.insert grade ((grades.getD grade ∅).insert rank value)

/-- Terms of several grades, from grades and ranks with coefficients. -/
def ofGrades (terms : List (Nat × Nat × α)) : Multivector α :=
  graded (terms.foldl (fun grades t => insertGraded grades t.1 t.2.1 t.2.2) ∅)

/-- Terms by blade. -/
def ofBlades (terms : List (Nat × α)) : Multivector α := sparse (.ofList terms)

/-- One basis blade with a coefficient. -/
def ofBlade (b : Nat) (value : α) : Multivector α :=
  if b = 0 then scalar value else ofRanks (grade b) [(rank b, value)]

/-! ## The view -/

/-- The blades of one grade, from their ranks. -/
def gradeTerms (g : Nat) (terms : Terms α) : List (Nat × α) :=
  terms.toList.map fun t => (unrank g t.1, t.2)

/-- The blades with their coefficients: ascending within a grade, grades ascending; without grades,
    by blade. -/
def terms : Multivector α → List (Nat × α)
  | scalar value => [(0, value)]
  | kvector g terms => gradeTerms g terms
  | graded grades => grades.toList.flatMap fun g => gradeTerms g.1 g.2
  | sparse terms => terms.toList

/-- The coefficient of a blade, if there is one. -/
def get? (mv : Multivector α) (b : Nat) : Option α :=
  match mv with
  | scalar value => if b = 0 then some value else none
  | kvector g terms => if grade b = g then terms[rank b]? else none
  | graded grades => grades[grade b]? >>= fun terms => terms[rank b]?
  | sparse terms => terms[b]?

/-- Whether the blade has a coefficient. -/
def contains (mv : Multivector α) (b : Nat) : Bool := (mv.get? b).isSome

/-- The number of terms. -/
def size : Multivector α → Nat
  | scalar _ => 1
  | kvector _ terms => terms.size
  | graded grades => grades.foldl (fun n _ terms => n + terms.size) 0
  | sparse terms => terms.size

def isEmpty (mv : Multivector α) : Bool := mv.size == 0

/-- The grades that have a term, ascending. -/
def grades : Multivector α → List Nat
  | scalar _ => [0]
  | kvector g terms => if terms.isEmpty then [] else [g]
  | graded grades => (grades.filter fun _ terms => !terms.isEmpty).keys
  | sparse terms => (Std.ExtTreeSet.ofList (terms.keys.map grade)).toList

def maxGrade? (mv : Multivector α) : Option Nat := mv.grades.getLast?

/-- The grade of all terms, where it is one. -/
def singleGrade? (mv : Multivector α) : Option Nat :=
  match mv.grades with
  | [g] => some g
  | _ => none

/-- The largest blade with a term; without terms, the scalar blade. -/
def maxBlade (mv : Multivector α) : Nat := mv.terms.foldl (fun b t => max b t.1) 0

/-- The number of basis vectors an algebra must have to hold all terms. -/
def requiredDimension (mv : Multivector α) : Nat := Blade.requiredDimension mv.maxBlade

/-- The coefficients by blade. -/
def toTerms (mv : Multivector α) : Terms α := .ofList mv.terms

/-- The same terms by blade. -/
def toSparse : Multivector α → Multivector α
  | sparse terms => sparse terms
  | mv => sparse mv.toTerms

/-! ## Range checks -/

/-- Refuses terms of one grade whose largest rank is beyond the blades of that grade in an
    `n`-dimensional algebra. A rank that no algebra has is told from one that needs a larger
    algebra. -/
def validateRanks (n g : Nat) (terms : Terms α) : Except Error Unit :=
  match terms.maxKey? with
  | none => .ok ()
  | some last =>
    if last < binomial n g then .ok ()
    else if g > maxDimension ∨ last ≥ binomial maxDimension g then
      .error (.unreachableIndex g last)
    else .error (.dimensionMismatch n (Blade.requiredDimension (unrank g last)))

/-- Refuses a multivector with a term outside an `n`-dimensional algebra. -/
def validate (n : Nat) (mv : Multivector α) : Except Error Unit := do
  validateDimension n
  match mv with
  | scalar _ => .ok ()
  | kvector g terms => validateRanks n g terms
  | graded grades => grades.toList.forM fun g => validateRanks n g.1 g.2
  | sparse terms =>
    match terms.maxKey? with
    | none => .ok ()
    | some last =>
      if Blade.requiredDimension last > n then
        .error (.dimensionMismatch n (Blade.requiredDimension last))
      else .ok ()

/-- The multivector, if it belongs to an `n`-dimensional algebra. -/
def checked (n : Nat) (mv : Multivector α) : Except Error (Multivector α) := do
  mv.validate n
  return mv

/-- A vector of an `n`-dimensional algebra, from its `n` coordinates. -/
def vectorIn (n : Nat) (coordinates : List α) : Except Error (Multivector α) :=
  if coordinates.length = n then (vector coordinates).checked n
  else .error (.coefficientCount n coordinates.length)

end Multivector

end GeometricAlgebra

import Std.Data.ExtTreeMap
import GeometricAlgebra.Scalars

set_option autoImplicit false

/-! # Polynomials over named atoms

A symbolic coefficient is a polynomial in atoms. A monomial is the list of its atoms in ascending
order, an atom repeated as often as its power says; a polynomial maps monomials to coefficients, in
the order of monomials. Sums keep only coefficients whose size is above a tolerance, so what cancels
leaves no trace and equal polynomials are equal maps. -/

namespace GeometricAlgebra

/-- The atoms of a product, ascending. -/
abbrev Monomial := List String

/-- A sum of monomials with coefficients. -/
structure Polynomial (κ : Type) where
  terms : Std.ExtTreeMap Monomial κ

namespace Polynomial

open Coefficient

variable {κ : Type} [Coefficient κ]

/-! ## Building polynomials -/

def zero : Polynomial κ := ⟨∅⟩

/-- The polynomial without atoms; exactly zero gives no term. -/
def constant (c : κ) : Polynomial κ :=
  if eq c (ofInt 0) then zero else ⟨(∅ : Std.ExtTreeMap Monomial κ).insert [] c⟩

/-- One atom. -/
def atom (name : String) : Polynomial κ :=
  ⟨(∅ : Std.ExtTreeMap Monomial κ).insert [name] (ofInt 1)⟩

/-! ## Arithmetic -/

/-- Adds a term, and drops it if what is left is within the tolerance. -/
def addTerm (ε : κ) (terms : Std.ExtTreeMap Monomial κ) (m : Monomial) (c : κ) :
    Std.ExtTreeMap Monomial κ :=
  terms.alter m fun
    | some old => if le (magnitude (old + c)) ε then none else some (old + c)
    | none => if lt ε (magnitude c) then some c else none

def add (ε : κ) (p q : Polynomial κ) : Polynomial κ :=
  ⟨q.terms.foldl (fun acc m c => addTerm ε acc m c) p.terms⟩

def sub (ε : κ) (p q : Polynomial κ) : Polynomial κ :=
  ⟨q.terms.foldl (fun acc m c => addTerm ε acc m (-c)) p.terms⟩

def neg (p : Polynomial κ) : Polynomial κ := ⟨p.terms.map fun _ c => -c⟩

/-- The monomial with the atoms of both. -/
def mulMonomial (m n : Monomial) : Monomial := (m ++ n).mergeSort (fun a b => a ≤ b)

def mul (ε : κ) (p q : Polynomial κ) : Polynomial κ :=
  ⟨p.terms.foldl
    (fun acc m c => q.terms.foldl (fun acc n d => addTerm ε acc (mulMonomial m n) (c * d)) acc) ∅⟩

/-! ## Queries -/

def isZero (p : Polynomial κ) : Bool := p.terms.isEmpty

/-- The number of monomials. -/
def size (p : Polynomial κ) : Nat := p.terms.size

/-- The largest number of atoms in a monomial. -/
def degree (p : Polynomial κ) : Nat := p.terms.foldl (fun n m _ => max n m.length) 0

/-- The value of a polynomial without atoms. -/
def constant? (p : Polynomial κ) : Option κ :=
  match p.size with
  | 0 => some (ofInt 0)
  | 1 => p.terms[([] : Monomial)]?
  | _ => none

/-- The value of a monomial with a coefficient in front. -/
def evalMonomial (value : String → Option κ) (c : κ) (m : Monomial) : Except Error κ :=
  m.foldlM (fun product a =>
    match value a with
    | some v => .ok (product * v)
    | none => .error (.missingAtom a)) c

/-- The value of a polynomial; every atom in it needs one. -/
def eval (value : String → Option κ) (p : Polynomial κ) : Except Error κ :=
  p.terms.toList.foldlM (fun total t => do
    return total + (← evalMonomial value t.2 t.1)) (ofInt 0)

/-! ## Text -/

/-- A term without its sign. -/
def termText (m : Monomial) (size : κ) : String :=
  if m.isEmpty then text size
  else (if eq size (ofInt 1) then "" else text size ++ "*") ++ "*".intercalate m

/-- The terms in order, joined by their signs. -/
def toText (p : Polynomial κ) : String :=
  match p.terms.toList with
  | [] => "0"
  | (m, c) :: rest =>
    let first := (if lt c (ofInt 0) then "-" else "") ++ termText m (magnitude c)
    rest.foldl (fun out (t : Monomial × κ) =>
      out ++ (if lt t.2 (ofInt 0) then " - " else " + ") ++ termText t.1 (magnitude t.2)) first

/-! ## Polynomials as scalars -/

/-- Divides by a polynomial without atoms. -/
def div (ε : κ) (p q : Polynomial κ) : Except Error (Polynomial κ) :=
  match q.constant? with
  | none => .error (.nonConstantDivisor q.toText)
  | some d =>
    if le (magnitude d) ε then .error .zeroDivisor
    else .ok ⟨p.terms.map fun _ c => c / d⟩

/-- Multiplies by a sign; a factor that is none of the three signs counts as a constant. -/
def timesSign (ε : κ) (p : Polynomial κ) (s : Int) : Polynomial κ :=
  if s = 0 then zero
  else if s = 1 then p
  else if s = -1 then p.neg
  else mul ε p (constant (ofInt s))

/-- Arithmetic on polynomials whose coefficients are above the tolerance. -/
def scalars (ε : κ) : Scalars (Polynomial κ) where
  zero := zero
  one := constant (ofInt 1)
  ofInt s := constant (ofInt s)
  ofFloat x := constant (ofFloat x)
  add := add ε
  sub := sub ε
  neg := neg
  mul := mul ε
  div := div ε
  isZero := isZero
  text := toText
  timesSign := timesSign ε
  magnitude _ := none

end Polynomial

/-- Polynomials with floating-point coefficients and the default tolerance. -/
def Scalars.symbolic : Scalars (Polynomial Float) := Polynomial.scalars defaultTolerance

end GeometricAlgebra

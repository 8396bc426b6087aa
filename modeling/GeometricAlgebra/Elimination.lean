import GeometricAlgebra.Scalars

set_option autoImplicit false

/-! # Inverse matrices

Gauss-Jordan elimination. The matrix and the identity stand side by side, and every row operation is
done to both: for each column in turn, a row with a usable entry is swapped into place and divided
by that entry, and its multiples clear the column in all other rows. When the left half has become
the identity, the right half is the inverse.

The usable entry is one of the largest size where scalars have one, and otherwise the first that is
not zero. -/

namespace GeometricAlgebra

/-- A square matrix, row by row. -/
abbrev SquareMatrix (α : Type) (n : Nat) := Vector (Vector α n) n

namespace SquareMatrix

variable {α : Type} {n : Nat}

/-- The matrix with the given rows, if there are as many as each has entries. -/
def ofRows? (rows : List (List α)) : Option (SquareMatrix α rows.length) :=
  if h : ∀ row ∈ rows, row.length = rows.length then
    some (Vector.ofFn fun i => ⟨rows[i].toArray, by simp [h]⟩)
  else none

def toRows (m : SquareMatrix α n) : List (List α) := m.toList.map Vector.toList

variable (S : Scalars α)

def identity (n : Nat) : SquareMatrix α n :=
  Vector.ofFn fun i => Vector.ofFn fun j => if i = j then S.one else S.zero

/-- The row, from `column` down, to take the pivot of a column from. -/
def pivotRow? (m : SquareMatrix α n) (column : Fin n) : Option (Fin n) :=
  let usable := (List.finRange n).filter fun r => column ≤ r && !S.isZero m[r][column]
  match usable with
  | [] => none
  | first :: rest =>
    match S.magnitude m[first][column] with
    | none => some first
    | some size =>
      some (rest.foldl (fun (best : Fin n × Float) r =>
        match S.magnitude m[r][column] with
        | some size => if size > best.2 then (r, size) else best
        | none => best) (first, size)).1

/-- The rows of a matrix next to those of another one. -/
structure Augmented (α : Type) (n : Nat) where
  left : SquareMatrix α n
  right : SquareMatrix α n

/-- The row of the index that `i` has after rows `a` and `b` were swapped. -/
def swapped (a b i : Fin n) : Fin n :=
  if i = a then b else if i = b then a else i

/-- Subtracts a multiple of a row. -/
def subtractMultiple (row : Vector α n) (factor : α) (pivotRow : Vector α n) : Vector α n :=
  Vector.ofFn fun j => S.sub row[j] (S.mul factor pivotRow[j])

/-- Makes a column of the left half that of the identity. -/
def clearColumn (m : Augmented α n) (column : Fin n) : Except Error (Augmented α n) :=
  match pivotRow? S m.left column with
  | none => .error (.noPivot column)
  | some pivot => do
    let divide (row : Vector α n) := row.mapM fun x => S.div x m.left[pivot][column]
    let leftRow ← divide m.left[pivot]
    let rightRow ← divide m.right[pivot]
    let clear (rows : SquareMatrix α n) (pivotRow : Vector α n) : SquareMatrix α n :=
      Vector.ofFn fun i =>
        let r := swapped column pivot i
        let factor := m.left[r][column]
        if i = column then pivotRow
        else if S.isZero factor then rows[r]
        else subtractMultiple S rows[r] factor pivotRow
    return ⟨clear m.left leftRow, clear m.right rightRow⟩

/-- The inverse of a matrix. -/
def inverse (m : SquareMatrix α n) : Except Error (SquareMatrix α n) := do
  let reduced ← (List.finRange n).foldlM (clearColumn S) ⟨m, identity S n⟩
  return reduced.right

/-- The inverse of the matrix with the given rows. -/
def inverseOfRows (rows : List (List α)) : Except Error (List (List α)) :=
  match ofRows? rows with
  | none => .error .notSquare
  | some m => do return toRows (← inverse S m)

end SquareMatrix

end GeometricAlgebra

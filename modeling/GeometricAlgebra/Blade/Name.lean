import GeometricAlgebra.Blade.Basic
import GeometricAlgebra.Decimal.Read
import GeometricAlgebra.Text.Split

set_option autoImplicit false

/-! # Names of blades

The scalar blade is called `1`, and every other blade by its vectors, counted from one and in
ascending order: `e1^e3`. A reader may leave the wedges out, pad the numbers with zeros and put
white space around the name; it refuses vectors that do not ascend. -/

namespace GeometricAlgebra

namespace Blade

/-- The name of a basis vector. -/
def vectorName (i : Nat) : String := s!"e{i + 1}"

/-- The name of a blade. -/
def name (b : Nat) : String :=
  if b = 0 then "1" else "^".intercalate ((vectors b).map vectorName)

/-! ## Reading -/

/-- The text after a wedge, if it starts with one. -/
def dropWedge : List Char → List Char
  | '^' :: cs => cs
  | cs => cs

theorem length_dropWedge_le (cs : List Char) : (dropWedge cs).length ≤ cs.length := by
  unfold dropWedge
  split <;> simp

/-- The digits of the factors of a name, where the whole text is one. A wedge stands only between
    factors. -/
def factors? : List Char → Option (List (List Char))
  | 'e' :: cs =>
    let digits := cs.takeWhile Text.isDecimalDigit
    let rest := cs.dropWhile Text.isDecimalDigit
    if digits.isEmpty then none
    else if rest.isEmpty then some [digits]
    else (factors? (dropWedge rest)).map (digits :: ·)
  | _ => none
termination_by cs => cs.length
decreasing_by
  exact Nat.lt_succ_of_le (Nat.le_trans (length_dropWedge_le _)
    (List.dropWhile_sublist _).length_le)

/-- The first number of a vector that is too large to be counted. -/
def vectorNumberBound : Nat := 1 <<< 32

/-- The number of a vector, from its digits in the name `text`. Only ASCII digits make a number. -/
def vectorNumber (text digits : List Char) : Except Error Nat :=
  let number := Decimal.valueOf digits
  if !digits.all Decimal.isDigit || vectorNumberBound ≤ number then
    .error (.vectorNumberTooLarge (String.ofList text))
  else if number = 0 ∨ number > maxDimension then
    .error (.vectorNumberOutside number (String.ofList text))
  else .ok number

/-- Adds a factor to a blade, given the number of its last vector. -/
def addFactor (text : List Char) (acc : Nat × Nat) (digits : List Char) :
    Except Error (Nat × Nat) := do
  let number ← vectorNumber text digits
  if number ≤ acc.2 then .error (.vectorsNotAscending (String.ofList text))
  else return (acc.1 ||| ofVector (number - 1), number)

/-- The blade of the given name. -/
def ofText (text : List Char) : Except Error Nat :=
  let text := Text.trim text
  if text = ['1'] then .ok 0
  else
    match factors? text with
    | none => .error (.malformedBlade (String.ofList text))
    | some factors => do return (← factors.foldlM (addFactor text) (0, 0)).1

end Blade

end GeometricAlgebra

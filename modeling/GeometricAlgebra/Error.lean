set_option autoImplicit false

/-! # What can go wrong

Every operation of the library that can fail fails with an `Error`: one constructor per cause, with
the numbers and texts that the cause is about. The wording is in one place, `Error.message`, and
each cause belongs to one of four kinds, `Error.kind`. Nothing else in the library writes an error
text. -/

namespace GeometricAlgebra

/-- The four kinds of failure. -/
inductive ErrorKind where
  /-- An argument lies outside what the algebra at hand allows. -/
  | invalidArgument
  /-- An operand needs another number of basis vectors than the algebra has. -/
  | dimensionMismatch
  /-- A map, a versor or a pseudoscalar that has to be invertible is not. -/
  | singular
  /-- A text is not of the interchange format. -/
  | serialization
  deriving DecidableEq, Repr

/-- The causes of failure. -/
inductive Error where
  | dimensionTooLarge (dimension : Nat)
  | gradeTooLarge (grade dimension : Nat)
  | indexOutOfRange (index grade count : Nat)
  | repeatedVector (vector : Nat)
  | vectorsOutOfRange (first second dimension : Nat)
  | bivectorIndexOutOfRange (index dimension count : Nat)
  | bladeOutOfRange (blade dimension : Nat)
  | badSquare (square : Int)
  | dimensionOverflow
  | unknownProduct (name : String)
  | badTolerance (tolerance : String)
  | zeroDivisor
  | nonConstantDivisor (divisor : String)
  | missingAtom (atom : String)
  | unreachableIndex (grade index : Nat)
  | coefficientCount (expected found : Nat)
  | mixedGrade (expected found : Nat)
  | imageCount (expected found : Nat)
  | imageGrade (vector grade : Nat)
  | imageIndex (vector dimension : Nat)
  | notAVector (grade : Nat)
  | otherGrade (expected found : Nat)
  | notSquare
  | malformedBlade (text : String)
  | vectorNumberTooLarge (text : String)
  | vectorNumberOutside (number : Nat) (text : String)
  | vectorsNotAscending (text : String)
  | malformedTerm (text : String)
  | badCoefficient (text : String)
  | infiniteCoefficient (text : String)
  | unsupportedVersion (version : String)
  | bladeMismatch (name : String) (blade : Nat)
  | duplicateTerm (blade : Nat)
  | tooManyToFill (grade dimension count : Nat)
  | densityOutside (density : String)
  | tooManyToSample (blades dimension : Nat)
  | dimensionMismatch (expected found : Nat)
  | noPivot (column : Nat)
  | nullPseudoscalar (signature : String)
  | nullVersor
  | malformedJson
  deriving DecidableEq, Repr

namespace Error

/-- The kind a cause belongs to. -/
def kind : Error → ErrorKind
  | dimensionMismatch .. => .dimensionMismatch
  | noPivot .. => .singular
  | nullPseudoscalar .. => .singular
  | nullVersor => .singular
  | malformedJson => .serialization
  | _ => .invalidArgument

/-- A number in binary, with its mark: five is `0b101`. -/
private def binary (n : Nat) : String :=
  "0b" ++ String.ofList (Nat.toDigits 2 n)

/-- The cause in words, without its kind. -/
def detail : Error → String
  | dimensionTooLarge d => s!"dimension {d} exceeds the maximum of 64"
  | gradeTooLarge g d => s!"grade {g} exceeds dimension {d}"
  | indexOutOfRange i g n => s!"index {i} out of range for grade {g} (count {n})"
  | repeatedVector i => s!"basis bivector needs two distinct vectors, got {i} twice"
  | vectorsOutOfRange i j d =>
      s!"basis vector indices ({i}, {j}) out of range for dimension {d}"
  | bivectorIndexOutOfRange i d n =>
      s!"bivector index {i} out of range for dimension {d} (count {n})"
  | bladeOutOfRange b d => s!"basis blade {binary b} out of range for dimension {d}"
  | badSquare s => s!"basis vector square must be 1, -1 or 0, got {s}"
  | dimensionOverflow => "signature dimension overflows"
  | unknownProduct name => s!"unknown product kind '{name}'"
  | badTolerance t => s!"epsilon must be finite and non-negative, got {t}"
  | zeroDivisor => "division by a zero scalar"
  | nonConstantDivisor p => s!"cannot divide by non-constant polynomial '{p}'"
  | missingAtom a => s!"no value for atom '{a}'"
  | unreachableIndex g i => s!"grade-{g} index {i} out of range for any dimension"
  | coefficientCount n m => s!"vector needs {n} coefficients, got {m}"
  | mixedGrade k g => s!"term of grade {g} in a grade-{k} k-vector"
  | imageCount n m => s!"outermorphism needs {n} basis vector images, got {m}"
  | imageGrade i g => s!"image of e{i + 1} has a grade-{g} part; images must be vectors"
  | imageIndex i d => s!"basis vector {i} out of range for domain dimension {d}"
  | notAVector g => s!"map_vector given a grade-{g} term"
  | otherGrade k g => s!"map_kvector expected grade {k}, found a grade-{g} term"
  | notSquare => "matrix is not square"
  | malformedBlade t => s!"malformed blade '{t}'"
  | vectorNumberTooLarge t => s!"basis vector index too large in '{t}'"
  | vectorNumberOutside i t => s!"basis vector index {i} in '{t}' outside 1..=64"
  | vectorsNotAscending t => s!"basis vectors in '{t}' must be strictly ascending"
  | malformedTerm t => s!"expected blade=coefficient, got '{t}'"
  | badCoefficient t => s!"bad coefficient '{t}'"
  | infiniteCoefficient t => s!"coefficient '{t}' is not finite"
  | unsupportedVersion v => s!"unsupported wire version '{v}', expected '1'"
  | bladeMismatch name b => s!"blade '{name}' does not match id {b}"
  | duplicateTerm b => s!"duplicate term id {b}"
  | tooManyToFill g d n =>
      s!"grade-{g} space of dimension {d} has {n} blades, too many to fill"
  | densityOutside t => s!"density {t} outside [0, 1]"
  | tooManyToSample n d => s!"{n} blades in dimension {d}, too many to sample densely"
  | dimensionMismatch n m => s!"algebra has {n} basis vectors, operand needs {m}"
  | noPivot c => s!"no pivot in column {c}"
  | nullPseudoscalar s => s!"pseudoscalar of {s} has no inverse"
  | nullVersor => "versor has zero norm"
  | malformedJson => ""

/-- The full text: the kind, then the cause. -/
def message (e : Error) : String :=
  match e.kind with
  | .invalidArgument => "invalid argument: " ++ e.detail
  | .dimensionMismatch => "dimension mismatch: " ++ e.detail
  | .singular => "singular: " ++ e.detail
  | .serialization => "serialization error"

end Error

end GeometricAlgebra

import GeometricAlgebra.CommandLine.Failure
import GeometricAlgebra.Frame
import GeometricAlgebra.Toml.Decode

set_option autoImplicit false

/-! # Configuration of the command line

A configuration describes the algebra that commands work in: its signature, by counts or square by
square, the tolerance of its scalars and its strategy for products. It may give a frame, and an
outermorphism by its matrix. Everything has a default, and without a configuration the algebra is
that of three-dimensional space. What the values mean is checked when a command asks for it. -/

namespace GeometricAlgebra

namespace CommandLine

/-- A configuration as it is written. -/
structure Config where
  positive : Nat := 3
  negative : Nat := 0
  null : Nat := 0
  /-- The squares of the basis vectors, instead of their counts. -/
  squares? : Option (List Int) := none
  tolerance : Float := defaultTolerance
  strategy : Strategy := .auto
  /-- The vectors of the frame, by their coordinates. -/
  frame? : Option (List (List Float)) := none
  /-- The columns of the outermorphism's matrix. -/
  images? : Option (List (List Float)) := none
  /-- The names of sections that have no meaning, ascending. -/
  unknown : List String := []

namespace Config

/-! ## Reading -/

/-- A field that has a default. -/
def fieldOr {β : Type} (read : Toml → Option β) (default : β) : Option Toml → Option β
  | none => some default
  | some t => read t

/-- A field that may be missing. -/
def optionalField {β : Type} (read : Toml → Option β) (t : Option Toml) : Option (Option β) :=
  fieldOr (fun t => (read t).map some) none t

/-- A list of vectors, by their coordinates. -/
def vectors? (t : Toml) : Option (List (List Float)) := t.listOf? (·.listOf? Toml.toFloat?)

/-- A record of one list of vectors. -/
def vectorsUnder? (name : String) (t : Toml) : Option (List (List Float)) := do
  match ← t.fields? [name] with
  | [some vectors] => vectors? vectors
  | _ => none

/-- Reads the description of the algebra over the defaults. -/
def withAlgebra? (config : Config) (t : Toml) : Option Config := do
  let count := Toml.toNat? (1 <<< 32)
  match ← t.fields? ["positive", "negative", "zero", "squares", "epsilon", "strategy"] with
  | [positive, negative, null, squares, tolerance, strategy] =>
    return { config with
      positive := ← fieldOr count config.positive positive
      negative := ← fieldOr count config.negative negative
      null := ← fieldOr count config.null null
      squares? := ← optionalField (·.listOf? (Toml.toInt? 32)) squares
      tolerance := ← fieldOr Toml.toFloat? config.tolerance tolerance
      strategy := ← fieldOr (·.choice?.bind Strategy.ofName?) config.strategy strategy }
  | _ => none

/-- The names of the sections that have a meaning. -/
def knownSections : List String := ["algebra", "frame", "outermorphism"]

/-- The sections that have no meaning. -/
def unknownSections (entries : Toml.Entries) : Toml.Entries :=
  entries.filter fun (e : String × Toml) => !knownSections.contains e.1

/-- The configuration with the given entries. A section without a meaning has to be a value all the
    same. -/
def ofEntries? (entries : Toml.Entries) : Option Config := do
  let others := unknownSections entries
  guard (others.all fun (e : String × Toml) => e.2.datesHold)
  let start : Config := {
    frame? := ← optionalField (vectorsUnder? "vectors") (entries.lookup "frame")
    images? := ← optionalField (vectorsUnder? "images") (entries.lookup "outermorphism")
    unknown := (others.map Prod.fst).mergeSort fun a b => a ≤ b }
  match entries.lookup "algebra" with
  | none => return start
  | some t => start.withAlgebra? t

/-! ## Meaning -/

/-- The signature of the algebra. -/
def signature (config : Config) : Except Failure Signature :=
  during .signature (match config.squares? with
    | some squares => Signature.ofSigns squares
    | none => Signature.ofCounts config.positive config.negative config.null)

/-- The algebra of floating-point multivectors. -/
def algebra (config : Config) : Except Failure (Algebra Float) := do
  let scalars ← during .tolerance (Coefficient.ofTolerance config.tolerance)
  return ⟨← config.signature, scalars, config.strategy⟩

/-- The frame, if there is one. -/
def frame (config : Config) : Except Failure (Option (Frame Float)) :=
  match config.frame? with
  | none => .ok none
  | some coordinates => do
    let A ← config.algebra
    let vectors ← during .frameVectors (coordinates.mapM (Multivector.vectorIn A.dimension))
    return some (← during .frame (Frame.ofVectors A vectors))

/-- The outermorphism, if there is one. -/
def outermorphism (config : Config) : Except Failure (Option (Outermorphism Float)) :=
  match config.images? with
  | none => .ok none
  | some columns => do
    let A ← config.algebra
    return some (← during .images (Outermorphism.ofColumns A.scalars A.dimension columns))

end Config

end CommandLine

end GeometricAlgebra

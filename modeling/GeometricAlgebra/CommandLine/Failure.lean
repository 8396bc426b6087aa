import GeometricAlgebra.Product

set_option autoImplicit false

/-! # Why a command fails

A failure of a command is told as a chain of messages, from what the command was doing to what went
wrong. All wording of the command line is here; that of the library is in `Error.message`. -/

namespace GeometricAlgebra

namespace CommandLine

/-- What a command was doing when the library refused something. -/
inductive Stage where
  | signature
  | tolerance
  | frameVectors
  | frame
  | images
  | productName
  | leftOperand
  | rightOperand
  | evaluation (k : Product)
  | operand
  | application
  | reading
  deriving DecidableEq, Repr

/-- The stage in words. -/
def Stage.message : Stage → String
  | signature => "invalid [algebra] signature"
  | tolerance => "invalid [algebra] epsilon"
  | frameVectors => "invalid [frame] vectors"
  | frame => "invalid [frame]"
  | images => "invalid [outermorphism] images"
  | productName => "invalid product kind"
  | leftOperand => "failed to parse left operand"
  | rightOperand => "failed to parse right operand"
  | evaluation k => s!"failed to evaluate {k.name}"
  | operand => "failed to parse multivector"
  | application => "failed to apply outermorphism"
  | reading => "failed to import multivector"

/-- Why a command fails. -/
inductive Failure where
  | unreadableConfig (path : String)
  | malformedConfig (path : String)
  | unreadableFile (path : String)
  | noMap
  | gradeTooLarge (grade dimension : Nat)
  | tooManyBlades (count : Nat)
  | tooManyVectors (limit dimension : Nat)
  /-- The library refused something at a stage. -/
  | during (stage : Stage) (cause : Error)
  /-- The library refused something. -/
  | refused (cause : Error)
  deriving DecidableEq, Repr

/-- The messages of a failure, the outermost first. -/
def Failure.messages : Failure → List String
  | unreadableConfig path => [s!"failed to read config {path}"]
  | malformedConfig path => [s!"failed to parse config {path}"]
  | unreadableFile path => [s!"failed to read {path}"]
  | noMap => ["config has no [outermorphism] section"]
  | gradeTooLarge g n => [s!"grade {g} exceeds dimension {n}"]
  | tooManyBlades count =>
      [s!"{count} blades to list; narrow the listing with --grade or a smaller algebra"]
  | tooManyVectors limit n => [s!"symbolic products are limited to dimension {limit}, got {n}"]
  | during stage cause => [stage.message, cause.message]
  | refused cause => [cause.message]

/-- The result of the library, or a failure at the given stage. -/
def during {β : Type} (stage : Stage) (r : Except Error β) : Except Failure β :=
  r.mapError (Failure.during stage)

end CommandLine

end GeometricAlgebra

import GeometricAlgebra.CommandLine.Config
import GeometricAlgebra.CommandLine.Help
import GeometricAlgebra.Interchange.Document
import GeometricAlgebra.Multivector.Text
import GeometricAlgebra.Polynomial
import GeometricAlgebra.Text.Control
import GeometricAlgebra.Toml.Parser

set_option autoImplicit false

/-! # Commands

What each command does, as a function of its operands and of what surrounds it: the files it may
read and the variable that names a configuration. The outcome is all that can be seen of a run. -/

namespace GeometricAlgebra

namespace CommandLine

/-- What a run can see beside its arguments. -/
structure Surroundings where
  /-- The text of a file that can be read. -/
  file? : String → Option String
  /-- The configuration to take where the arguments name none. -/
  config? : Option String

/-- What can be seen of a run. -/
structure Outcome where
  exitCode : Nat
  output : String
  /-- Why the run failed, the outermost reason first. -/
  errors : List String
  warnings : List String
  deriving DecidableEq, Repr

/-! ## Printing -/

/-- Lines as a text. -/
def textOf (lines : List String) : String := lines.foldl (fun text line => text ++ line ++ "\n") ""

/-- A text at the right end of a column. -/
def padLeft (width : Nat) (text : String) : String :=
  String.ofList (List.replicate (width - text.length) ' ') ++ text

/-- A text at the left end of a column. -/
def padRight (width : Nat) (text : String) : String :=
  text ++ String.ofList (List.replicate (width - text.length) ' ')

def yesNo (b : Bool) : String := if b then "yes" else "no"

/-- A multivector as text, or as an interchange document. -/
def present (json : Bool) (sig : Signature) (S : Scalars Float) (mv : Multivector Float) :
    Except Failure String :=
  if json then do
    let text ← (Interchange.write sig mv).mapError Failure.refused
    return textOf [text]
  else .ok (textOf [mv.toText S])

/-! ## The algebra and its blades -/

def info (json : Bool) (config : Config) : Except Failure String := do
  let sig ← config.signature
  let counts := (List.range (sig.dimension + 1)).map (binomial sig.dimension)
  if json then
    return textOf [Json.pretty (.record [
      ("blades", .text (toString sig.bladeCount)),
      ("blades_per_grade", .array (counts.map Json.nat)),
      ("dimension", .nat sig.dimension),
      ("frame", .bool config.frame?.isSome),
      ("outermorphism", .bool config.images?.isSome),
      ("signature", .text sig.name),
      ("squares", sig.toJson),
      ("strategy", config.strategy.toJson)])]
  else
    return textOf ([
      "signature:  " ++ sig.name,
      "dimension:  " ++ toString sig.dimension,
      "squares:    [" ++ ", ".intercalate (sig.signs.map toString) ++ "]",
      "blades:     " ++ toString sig.bladeCount,
      "strategy:   " ++ config.strategy.name.capitalize,
      "frame:      " ++ yesNo config.frame?.isSome,
      "map:        " ++ yesNo config.images?.isSome] ++
      counts.zipIdx.map fun (c : Nat × Nat) =>
        "grade " ++ padRight 2 (toString c.2) ++ "    " ++ toString c.1)

/-- The grades of an `n`-dimensional algebra, or the one that is asked for. -/
def chosenGrades (n : Nat) (grade? : Option Nat) : Except Failure (List Nat) :=
  match grade? with
  | none => .ok (List.range (n + 1))
  | some k => if k > n then .error (.gradeTooLarge k n) else .ok [k]

/-- The blades of the given grades. -/
def bladesOf (n : Nat) (grades : List Nat) : List Nat := grades.flatMap (Blade.ofGrade n)

/-- The most blades that are listed. -/
def maxListed : Nat := 1 <<< 12

def bladeToJson (b : Nat) : Json :=
  .record [("grade", .nat (Blade.grade b)), ("id", .nat b), ("index", .nat (Blade.rank b)),
    ("name", .text (Blade.name b))]

/-- A line of the list of blades. -/
def bladeRow (b grade rank name : String) : String :=
  padLeft 12 b ++ "  " ++ padLeft 5 grade ++ "  " ++ padLeft 12 rank ++ "  " ++ name

def blades (json : Bool) (grade? : Option Nat) (config : Config) : Except Failure String := do
  let sig ← config.signature
  let n := sig.dimension
  let grades ← chosenGrades n grade?
  let total := grades.foldl (fun sum k => sum + binomial n k) 0
  if total > maxListed then .error (.tooManyBlades total)
  else if json then return textOf [Json.pretty (.array ((bladesOf n grades).map bladeToJson))]
  else
    return textOf (bladeRow "id" "grade" "index" "name" :: (bladesOf n grades).map fun b =>
      bladeRow (toString b) (toString (Blade.grade b)) (toString (Blade.rank b)) (Blade.name b))

/-! ## Products and maps -/

def product (json : Bool) (kind a b : String) (config : Config) : Except Failure String := do
  let k ← during .productName (Product.ofText kind)
  let A ← config.algebra
  let a ← during .leftOperand (Multivector.ofText A.scalars A.dimension a)
  let b ← during .rightOperand (Multivector.ofText A.scalars A.dimension b)
  let result ← match ← config.frame with
    | some F => during (.evaluation k) (F.product k a b)
    | none => during (.evaluation k) (A.product k a b)
  present json A.signature A.scalars result

def apply (json : Bool) (mv : String) (config : Config) : Except Failure String := do
  match ← config.outermorphism with
  | none => .error .noMap
  | some f =>
    let A ← config.algebra
    let mv ← during .operand (Multivector.ofText A.scalars A.dimension mv)
    present json A.signature A.scalars (← during .application (A.map f mv))

/-! ## Symbolic products -/

/-- The largest dimension of a symbolic product. -/
def maxSymbolicDimension : Nat := 10

/-- The multivector with a symbol for the coefficient of every blade: the given letter, and the
    number of the blade. -/
def generic {κ : Type} [Coefficient κ] (letter : String) (n : Nat) (grade? : Option Nat) :
    Except Failure (Multivector (Polynomial κ)) := do
  let grades ← chosenGrades n grade?
  return .ofBlades ((bladesOf n grades).map fun b => (b, .atom (letter ++ toString b)))

/-- The product of two generic multivectors. -/
def genericProduct {κ : Type} [Coefficient κ] (A : Algebra (Polynomial κ)) (k : Product)
    (gradeA? gradeB? : Option Nat) : Except Failure (Multivector (Polynomial κ)) := do
  let a ← generic "a" A.dimension gradeA?
  let b ← generic "b" A.dimension gradeB?
  (A.product k a b).mapError Failure.refused

def symbolicRow (t : Nat × Polynomial Float) : Json :=
  .record [("blade", .text (Blade.name t.1)), ("id", .nat t.1), ("value", .text t.2.toText)]

def symbolic (json : Bool) (kind : String) (gradeA? gradeB? : Option Nat) (config : Config) :
    Except Failure String := do
  let k ← during .productName (Product.ofText kind)
  let sig ← config.signature
  if sig.dimension > maxSymbolicDimension then
    .error (.tooManyVectors maxSymbolicDimension sig.dimension)
  else
    let A : Algebra (Polynomial Float) := ⟨sig, Scalars.symbolic, config.strategy⟩
    let result ← genericProduct A k gradeA? gradeB?
    let terms := result.terms.mergeSort fun s t => Terms.before s.1 t.1
    if json then return textOf [Json.pretty (.array (terms.map symbolicRow))]
    else if terms.isEmpty then return textOf ["0"]
    else return textOf (terms.map fun t => Blade.name t.1 ++ ": " ++ t.2.toText)

/-! ## Documents -/

def document (json : Bool) (path : String) (s : Surroundings) : Except Failure String :=
  match s.file? path with
  | none => .error (.unreadableFile path)
  | some text => do
    let (sig, mv) ← during .reading (Interchange.read text)
    present json sig Scalars.floats mv

/-! ## Runs -/

/-- The file of the configuration, if one is named. -/
def configPath? (s : Surroundings) (options : Options) : Option String :=
  options.config?.or s.config?

/-- The configuration of a run. -/
def loadConfig (s : Surroundings) (options : Options) : Except Failure Config :=
  match configPath? s options with
  | none => .ok {}
  | some path =>
    match s.file? path with
    | none => .error (.unreadableConfig path)
    | some text =>
      match (Toml.ofText? text).bind Config.ofEntries? with
      | some config => .ok config
      | none => .error (.malformedConfig path)

/-- The outcome of a command with the given warnings. -/
def outcome (warnings : List String) (r : Except Failure String) : Outcome :=
  match r with
  | .ok output => ⟨0, output, [], warnings⟩
  | .error e => ⟨1, "", e.messages, warnings⟩

/-- What is told of sections that have no meaning. -/
def warningsOf (config : Config) : List String :=
  config.unknown.map fun name =>
    Text.showControls ("ignoring unknown config section [" ++ name ++ "]")

/-- Runs a command in a configuration. -/
def runIn (config : Config) (json : Bool) (s : Surroundings) : Command → Except Failure String
  | .info => info json config
  | .blades grade? => blades json grade? config
  | .product kind a b => product json kind a b config
  | .apply mv => apply json mv config
  | .symbolic kind gradeA? gradeB? => symbolic json kind gradeA? gradeB? config
  | .document path => document json path s

/-- Runs a command. A document brings its own algebra, so no configuration is read for it. -/
def runCommand (s : Surroundings) (options : Options) (command : Command) : Outcome :=
  match command with
  | .document path => outcome [] (document options.json path s)
  | command =>
    match loadConfig s options with
    | .error e => outcome [] (.error e)
    | .ok config => outcome (warningsOf config) (runIn config options.json s command)

/-- Runs what the arguments ask for. -/
def run (s : Surroundings) (args : List String) : Outcome :=
  match Request.ofArguments args with
  | .run options command => runCommand s options command
  | .help topic => ⟨0, textOf (Help.lines topic), [], []⟩
  | .misuse => ⟨2, "", [], []⟩

end CommandLine

end GeometricAlgebra

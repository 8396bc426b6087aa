import GeometricAlgebra.Decimal.Read

set_option autoImplicit false

/-! # Arguments of the command line

A command line names a command, gives its operands in order, and may give options anywhere: those of
all commands before or after the command's name, and those of a command after it. An option's value
follows it, or is attached to it by an equals sign; after `--` everything is an operand. Nothing may
be given twice at one level, and of an option of all commands the one after the name counts.

Arguments are read from left to right, and the first that has no place ends the reading, as does a
call for help. The value of an option that stands right before the command's name is looked at after
the command's own arguments, so that a call for help among these comes first. -/

namespace GeometricAlgebra

namespace CommandLine

/-! ## The commands' arguments -/

/-- What a command takes. -/
structure Usage where
  name : String
  about : String
  /-- The operands in order, each with what it is. -/
  operands : List (String × String)
  /-- The options that take a grade, each with what it is. -/
  grades : List (String × String)
  /-- Whether the operands are files, which have names that are not empty. -/
  files : Bool := false
  deriving DecidableEq, Repr

def usages : List Usage := [
  { name := "info", about := "Show the configured algebra", operands := [], grades := [] },
  { name := "blades", about := "List basis blades with their IDs and grade indices", operands := []
    grades := [("grade", "Only blades of this grade")] },
  { name := "product", about := "Evaluate a bilinear product of two multivectors"
    operands := [("KIND", "sp, op, gp, lcp, rcp, fdp, hip, cp or acp"),
      ("A", "Left operand, e.g. \"1=2, e1^e2=-0.5\""), ("B", "Right operand")]
    grades := [] },
  { name := "apply", about := "Apply the configured outermorphism"
    operands := [("MV", "Multivector to map")], grades := [] },
  { name := "symbolic", about := "Product of two generic multivectors with symbolic coefficients"
    operands := [("KIND", "")]
    grades := [("grade-a", "Restrict the left operand to one grade"),
      ("grade-b", "Restrict the right operand to one grade")] },
  { name := "show", about := "Print a multivector stored in the JSON wire format"
    operands := [("PATH", "")], grades := [], files := true }]

/-- What the command of the given name takes. -/
def usage? (name : String) : Option Usage := usages.find? fun u => u.name == name

/-! ## What can be asked for -/

/-- The options of all commands. -/
structure Options where
  /-- The file of the configuration. -/
  config? : Option String := none
  verbose : Bool := false
  json : Bool := false
  deriving DecidableEq, Repr

/-- The commands, with their operands. -/
inductive Command where
  /-- Describes the algebra. -/
  | info
  /-- Lists the blades of the algebra, or those of one grade. -/
  | blades (grade? : Option Nat)
  /-- Multiplies two multivectors. -/
  | product (kind a b : String)
  /-- Maps a multivector. -/
  | apply (mv : String)
  /-- Multiplies two multivectors with a symbol for every coefficient. -/
  | symbolic (kind : String) (gradeA? gradeB? : Option Nat)
  /-- Shows the multivector of a file. -/
  | document (path : String)
  deriving DecidableEq, Repr

/-- What help is about. -/
inductive Topic where
  /-- All commands. -/
  | overview
  /-- Help itself. -/
  | help
  | command (usage : Usage)
  deriving DecidableEq, Repr

/-- What a command line asks for. -/
inductive Request where
  | run (options : Options) (command : Command)
  | help (topic : Topic)
  /-- Nothing that makes sense. -/
  | misuse
  deriving DecidableEq, Repr

/-! ## Reading -/

/-- What has been given at one level, the operands from the last to the first. -/
structure Given where
  options : Options := {}
  grades : List (String × Nat) := []
  operands : List String := []

/-- The grade that a value writes: a number with or without a sign, that fits a 32-bit word. -/
def grade? (value : String) : Option Nat :=
  let (negative, digits) := Decimal.splitSign value.toList
  if digits.isEmpty || !digits.all Decimal.isDigit then none
  else
    let n := Decimal.valueOf digits
    if n < 1 <<< 32 ∧ (!negative ∨ n = 0) then some n else none

/-- Takes a flag; a value attached to it is out of place. -/
def Given.flag? (given : Given) (name : String) (attached? : Option String) : Option Given :=
  if attached?.isSome then none
  else if name = "verbose" ∧ !given.options.verbose then
    some { given with options := { given.options with verbose := true } }
  else if name = "json" ∧ !given.options.json then
    some { given with options := { given.options with json := true } }
  else none

/-- Whether an option takes a value, among those of a command or of no command. -/
def takesValue (usage? : Option Usage) (name : String) : Bool :=
  name == "config" ||
    match usage? with
    | some u => u.grades.any fun (g : String × String) => g.1 == name
    | none => false

/-- Takes an option with its value. -/
def Given.option? (given : Given) (name value : String) : Option Given :=
  if name = "config" then
    if value.isEmpty || given.options.config?.isSome then none
    else some { given with options := { given.options with config? := some value } }
  else if (given.grades.lookup name).isSome then none
  else (grade? value).map fun n => { given with grades := (name, n) :: given.grades }

/-- Takes an operand. -/
def Given.operand? (given : Given) (u : Usage) (value : String) : Option Given :=
  if given.operands.length < u.operands.length && !(u.files && value.isEmpty) then
    some { given with operands := value :: given.operands }
  else none

/-- What an argument looks like. -/
inductive Shape where
  /-- The mark after which all arguments are operands. -/
  | separator
  /-- An option by its name, with a value attached to it. -/
  | named (name : String) (attached? : Option String)
  /-- Options by single letters. -/
  | letters (cs : List Char)
  | plain
  deriving DecidableEq, Repr

/-- What an argument looks like. A dash alone is an operand. -/
def Shape.of (arg : String) : Shape :=
  match arg.toList with
  | ['-', '-'] => .separator
  | '-' :: '-' :: cs =>
    let name := String.ofList (cs.takeWhile (· != '='))
    match cs.dropWhile (· != '=') with
    | [] => .named name none
    | _ :: value => .named name (some (String.ofList value))
  | '-' :: c :: cs => .letters (c :: cs)
  | _ => .plain

/-- How the reading of one level ends. -/
inductive Ending where
  /-- All arguments are read. -/
  | finished (given : Given)
  /-- At the first plain argument of the level of no command. Nothing has been given if the value
      right before the name has no place. -/
  | command (given? : Option Given) (name : String) (rest : List String)
  | help
  | misuse

/-- Reads the operands after the separator. -/
def readOperands (u : Usage) : List String → Given → Ending
  | [], given => .finished given
  | arg :: rest, given =>
    match given.operand? u arg with
    | some given => readOperands u rest given
    | none => .misuse

/-- How the reading goes on after a value that has no place: only a command's name that comes next
    is still read. -/
def afterMisplaced (usage? : Option Usage) : List String → Ending
  | arg :: rest =>
    if usage?.isNone ∧ Shape.of arg = .plain then .command none arg rest else .misuse
  | [] => .misuse

/-- Reads the arguments of a command, or those before its name. -/
def readLevel (usage? : Option Usage) : List String → Given → Ending
  | [], given => .finished given
  | arg :: rest, given =>
    match Shape.of arg, usage? with
    | .separator, some u => readOperands u rest given
    | .separator, none => .misuse
    | .letters cs, _ => if cs.head? = some 'h' then .help else .misuse
    | .plain, none => .command (some given) arg rest
    | .plain, some u =>
      match given.operand? u arg with
      | some given => readLevel usage? rest given
      | none => .misuse
    | .named name attached?, _ =>
      if name = "help" then if attached?.isNone then .help else .misuse
      else if takesValue usage? name then
        match attached?, rest with
        | some value, rest =>
          match given.option? name value with
          | some given => readLevel usage? rest given
          | none => .misuse
        | none, value :: rest =>
          if Shape.of value = .plain then
            match given.option? name value with
            | some given => readLevel usage? rest given
            | none => afterMisplaced usage? rest
          else .misuse
        | none, [] => .misuse
      else
        match given.flag? name attached? with
        | some given => readLevel usage? rest given
        | none => .misuse

/-- The command of the given name with what has been given to it, if nothing is missing. -/
def Command.of? (name : String) (given : Given) : Option Command :=
  match name, given.operands.reverse with
  | "info", [] => some .info
  | "blades", [] => some (.blades (given.grades.lookup "grade"))
  | "product", [kind, a, b] => some (.product kind a b)
  | "apply", [mv] => some (.apply mv)
  | "symbolic", [kind] =>
    some (.symbolic kind (given.grades.lookup "grade-a") (given.grades.lookup "grade-b"))
  | "show", [path] => some (.document path)
  | _, _ => none

/-- The options of both levels, of which the command's own count. -/
def Options.merge (outer inner : Options) : Options where
  config? := inner.config?.or outer.config?
  verbose := outer.verbose || inner.verbose
  json := outer.json || inner.json

/-- What a call for help is about. -/
def helpOn : List String → Request
  | [] => .help .overview
  | ["help"] => .help .help
  | [name] =>
    match usage? name with
    | some u => .help (.command u)
    | none => .misuse
  | _ => .misuse

/-- What the arguments ask for. -/
def Request.ofArguments (args : List String) : Request :=
  match readLevel none args {} with
  | .finished _ => .misuse
  | .help => .help .overview
  | .misuse => .misuse
  | .command outer? name rest =>
    if name = "help" then helpOn rest
    else
      match usage? name with
      | none => .misuse
      | some u =>
        match readLevel (some u) rest {} with
        | .finished given =>
          match outer?, Command.of? name given with
          | some outer, some command => .run (outer.options.merge given.options) command
          | _, _ => .misuse
        | .help => .help (.command u)
        | _ => .misuse

end CommandLine

end GeometricAlgebra

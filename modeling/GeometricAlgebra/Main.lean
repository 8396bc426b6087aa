import GeometricAlgebra.CommandLine.Run

set_option autoImplicit false

/-! # The tool

Reads the file that the arguments ask for, runs the command, and writes what came of it: results to
the standard output, warnings and errors to the standard error. -/

namespace GeometricAlgebra

namespace CommandLine

/-- The file that a command line reads, if it reads one. -/
def neededFile? (args : List String) (fallback? : Option String) : Option String :=
  match Request.ofArguments args with
  | .run _ (.document path) => some path
  | .run options _ => options.config?.or fallback?
  | _ => none

/-- What is written about a run that failed. -/
def complaint (outcome : Outcome) : List String :=
  match outcome.errors with
  | [] => []
  | first :: causes =>
    ("Error: " ++ first) ::
      (if causes.isEmpty then [] else "" :: "Caused by:" :: causes.map ("    " ++ ·))

/-- The text of a file, if it can be read. -/
def readText? (path : String) : IO (Option String) := do
  try return some (← IO.FS.readFile path)
  catch _ => return none

/-- Runs the tool. -/
def runTool (args : List String) : IO UInt32 := do
  let fallback? ← IO.getEnv "GA_CONFIG"
  let text? ← match neededFile? args fallback? with
    | some path => readText? path
    | none => pure none
  let outcome := run ⟨fun _ => text?, fallback?⟩ args
  IO.print outcome.output
  for warning in outcome.warnings do
    IO.eprintln ("WARN " ++ warning)
  for line in complaint outcome do
    IO.eprintln line
  if outcome.exitCode = 2 then
    IO.eprint (textOf (Help.lines .overview))
  return UInt32.ofNat outcome.exitCode

end CommandLine

end GeometricAlgebra

def main (args : List String) : IO UInt32 := GeometricAlgebra.CommandLine.runTool args

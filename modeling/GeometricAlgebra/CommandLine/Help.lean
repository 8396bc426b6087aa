import GeometricAlgebra.CommandLine.Arguments

set_option autoImplicit false

/-! # Help on the command line

The text that a call for help prints: what the tool or a command does, how it is called, and what it
takes, one thing to a line with the explanations in a column of their own. -/

namespace GeometricAlgebra

namespace CommandLine

namespace Help

/-- Lines of names with explanations, all of which start in the same column. -/
def columns (rows : List (String × String)) : List String :=
  let width := rows.foldl (fun n (r : String × String) => max n r.1.length) 0
  rows.map fun (r : String × String) =>
    "  " ++ r.1 ++ String.ofList (List.replicate (width + 2 - r.1.length) ' ') ++ r.2

/-- The options of all commands with those of one, which come after the first. -/
def options (own : List (String × String)) : List (String × String) :=
  ("    --config <CONFIG>",
    "TOML algebra description (defaults to $GA_CONFIG, then 3D Euclidean)") :: own ++ [
  ("    --verbose", "Enable verbose debug output"),
  ("    --json", "Print results as JSON"),
  ("-h, --help", "Print help")]

/-- An option that takes a grade, with its name in capitals for the value. -/
def gradeOption (g : String × String) : String × String :=
  let value := String.ofList (g.1.toList.map fun c => if c = '-' then '_' else c.toUpper)
  ("    --" ++ g.1 ++ " <" ++ value ++ ">", g.2)

/-- What a call for help does. -/
def aboutHelp : String := "Print this message or the help of the given subcommand(s)"

/-- Help on all commands. -/
def overview : List String :=
  ["Geometric algebra calculator", "", "Usage: ga [OPTIONS] <COMMAND>", "", "Commands:"]
    ++ columns (usages.map (fun u => (u.name, u.about)) ++ [("help", aboutHelp)])
    ++ ["", "Options:"] ++ columns (options [])

/-- Help on help. -/
def onHelp : List String :=
  [aboutHelp, "", "Usage: ga help [COMMAND]...", "", "Arguments:"]
    ++ columns [("[COMMAND]...", "Print help for the subcommand(s)")]

/-- Help on a command. -/
def details (u : Usage) : List String :=
  let operands := u.operands.map fun (o : String × String) => ("<" ++ o.1 ++ ">", o.2)
  let call := operands.foldl (fun text (o : String × String) => text ++ " " ++ o.1) ""
  [u.about, "", "Usage: ga " ++ u.name ++ " [OPTIONS]" ++ call]
    ++ (if operands.isEmpty then [] else ["", "Arguments:"] ++ columns operands)
    ++ ["", "Options:"] ++ columns (options (u.grades.map gradeOption))

/-- The lines of a call for help. -/
def lines (topic : Topic) : List String :=
  match topic with
  | .overview => overview
  | .help => onHelp
  | .command u => details u

end Help

end CommandLine

end GeometricAlgebra

import GeometricAlgebra.Toml.Scalar

set_option autoImplicit false

/-! # Reading TOML

A text is read line by line: an entry, a header, a comment or nothing. Every reader takes the text
from where it starts, and gives what it has read with the text after it, or nothing where the text
is not of the form it reads. A reader that may call itself is given the number of characters as a
bound on how often. -/

namespace GeometricAlgebra

namespace Toml

/-! ## White space and comments -/

def isBlank (c : Char) : Bool := c == ' ' || c == '\t'

/-- Whether a character may stand in a comment or a string. -/
def isPrintable (c : Char) : Bool := c == '\t' || (0x20 ≤ c.toNat && c.toNat != 0x7f)

def skipBlanks (cs : List Char) : List Char := cs.dropWhile isBlank

/-- The text after the end of a line. -/
def newLine? : List Char → Option (List Char)
  | '\n' :: cs => some cs
  | '\r' :: '\n' :: cs => some cs
  | _ => none

/-- The text without a comment in front. -/
def skipComment : List Char → List Char
  | '#' :: cs => cs.dropWhile isPrintable
  | cs => cs

/-- The text after what may follow on a line that is complete. -/
def endOfLine? (cs : List Char) : Option (List Char) :=
  let rest := skipComment (skipBlanks cs)
  if rest.isEmpty then some [] else newLine? rest

/-- The text without blanks, comments and line ends in front. -/
def skipLines : (fuel : Nat) → List Char → List Char
  | 0, cs => cs
  | fuel + 1, cs =>
    let rest := skipComment (skipBlanks cs)
    match newLine? rest with
    | some next => skipLines fuel next
    | none => rest

/-! ## Strings -/

/-- The character of a code point. -/
def charOf? (n : Nat) : Option Char := if n.isValidChar then some (Char.ofNat n) else none

/-- The character of an escape, from the text after the backslash. -/
def escape? : List Char → Option (Char × List Char)
  | [] => none
  | c :: cs =>
    if c = 'u' ∨ c = 'U' then
      let count := if c = 'u' then 4 else 8
      let digits := cs.take count
      if digits.length = count && digits.all (isDigitOf 16) then
        (charOf? (valueIn 16 digits)).map fun char => (char, cs.drop count)
      else none
    else if c = 'b' then some ('\x08', cs)
    else if c = 't' then some ('\t', cs)
    else if c = 'n' then some ('\n', cs)
    else if c = 'f' then some ('\x0c', cs)
    else if c = 'r' then some ('\r', cs)
    else if c = '"' then some ('"', cs)
    else if c = '\\' then some ('\\', cs)
    else none

/-- Puts a character in front of what has been read. -/
def withChar (c : Char) (r : List Char × List Char) : List Char × List Char := (c :: r.1, r.2)

/-- A string in double quotes, from after the first quote. -/
def basic? : (fuel : Nat) → List Char → Option (List Char × List Char)
  | 0, _ => none
  | _ + 1, [] => none
  | fuel + 1, c :: cs =>
    if c = '"' then some ([], cs)
    else if c = '\\' then do
      let (char, rest) ← escape? cs
      return withChar char (← basic? fuel rest)
    else if isPrintable c then do return withChar c (← basic? fuel cs)
    else none

/-- A string in single quotes, from after the first quote. -/
def literal? (cs : List Char) : Option (List Char × List Char) :=
  let isLiteral (c : Char) : Bool := isPrintable c && c != '\''
  match cs.dropWhile isLiteral with
  | '\'' :: rest => some (cs.takeWhile isLiteral, rest)
  | _ => none

/-- The end of a string in three quotes: up to two more quotes in front belong to the string. -/
def closing? (quote : Char) (cs : List Char) : Option (List Char × List Char) :=
  let count := min 5 (cs.takeWhile (· == quote)).length
  if 3 ≤ count then some (List.replicate (count - 3) quote, cs.drop count) else none

/-- The text without blanks and line ends in front. -/
def skipBlankLines : (fuel : Nat) → List Char → List Char
  | 0, cs => cs
  | fuel + 1, cs =>
    match newLine? (skipBlanks cs) with
    | some rest => skipBlankLines fuel rest
    | none => skipBlanks cs

/-- A string in three quotes, from after these. Only a string in double quotes has escapes; a
    backslash at the end of a line leaves out what is blank after it. -/
def multiLine? (quote : Char) : (fuel : Nat) → List Char → Option (List Char × List Char)
  | 0, _ => none
  | fuel + 1, cs =>
    match closing? quote cs with
    | some r => some r
    | none =>
      match newLine? cs with
      | some rest => do return withChar '\n' (← multiLine? quote fuel rest)
      | none =>
        match cs with
        | [] => none
        | c :: rest =>
          if c = '\\' ∧ quote = '"' then
            if (newLine? (skipBlanks rest)).isSome then
              multiLine? quote fuel (skipBlankLines rest.length rest)
            else do
              let (char, rest) ← escape? rest
              return withChar char (← multiLine? quote fuel rest)
          else if isPrintable c then do return withChar c (← multiLine? quote fuel rest)
          else none

/-- The text without a line end in front. -/
def dropNewLine (cs : List Char) : List Char := (newLine? cs).getD cs

/-- A string of any kind. -/
def string? (cs : List Char) : Option (String × List Char) :=
  let read : Option (List Char × List Char) :=
    match cs with
    | '"' :: '"' :: '"' :: rest => multiLine? '"' cs.length (dropNewLine rest)
    | '\'' :: '\'' :: '\'' :: rest => multiLine? '\'' cs.length (dropNewLine rest)
    | '"' :: rest => basic? cs.length rest
    | '\'' :: rest => literal? rest
    | _ => none
  read.map fun (r : List Char × List Char) => (String.ofList r.1, r.2)

/-! ## Keys -/

def isBareChar (c : Char) : Bool := c.isAlphanum || c == '_' || c == '-'

/-- A name: bare, or in quotes. -/
def name? (cs : List Char) : Option (String × List Char) :=
  match cs with
  | '"' :: rest => (basic? cs.length rest).map fun r => (String.ofList r.1, r.2)
  | '\'' :: rest => (literal? rest).map fun r => (String.ofList r.1, r.2)
  | _ =>
    let bare := cs.takeWhile isBareChar
    if bare.isEmpty then none else some (String.ofList bare, cs.dropWhile isBareChar)

/-- The most names that a key can have, and the most arrays and tables that a value can be in. -/
def maxDepth : Nat := 80

/-- The names of a key, with dots between them. -/
def key? : (fuel : Nat) → List Char → Option (List String × List Char)
  | 0, _ => none
  | fuel + 1, cs => do
    let (first, rest) ← name? cs
    match skipBlanks rest with
    | '.' :: more =>
      let (names, rest) ← key? fuel (skipBlanks more)
      return (first :: names, rest)
    | rest => return ([first], rest)

/-- The names of a key before the last one, the last one, and the text after. -/
def splitKey? (cs : List Char) : Option (List String × String × List Char) := do
  let (names, rest) ← key? cs.length cs
  if names.length < maxDepth then return (names.dropLast, ← names.getLast?, rest) else none

/-! ## Values -/

/-- A date and the time after it on the same line, or whatever else is written without quotes. -/
def takeScalar (cs : List Char) : List Char × List Char :=
  let token := cs.takeWhile isScalarChar
  match cs.dropWhile isScalarChar with
  | ' ' :: c :: rest =>
    if isDate token && Decimal.isDigit c then
      (token ++ ' ' :: (c :: rest).takeWhile isScalarChar, (c :: rest).dropWhile isScalarChar)
    else (token, ' ' :: c :: rest)
  | rest => (token, rest)

mutual

/-- A value that is in `depth` arrays and tables. -/
def value? (depth : Nat) : (fuel : Nat) → List Char → Option (Toml × List Char)
  | 0, _ => none
  | fuel + 1, cs =>
    match cs with
    | [] => none
    | c :: rest =>
      if c = '"' ∨ c = '\'' then (string? cs).map fun r => (.string r.1, r.2)
      else if c = '[' then
        if depth + 1 < maxDepth then
          (items? (depth + 1) fuel rest).map fun (r : List Toml × List Char) => (.array r.1, r.2)
        else none
      else if c = '\x7b' then
        if depth + 1 < maxDepth then
          match skipBlanks rest with
          | '\x7d' :: rest => some (.table .inline [], rest)
          | rest =>
            (members? (depth + 1) fuel [] rest).map fun (r : Entries × List Char) =>
              (.table .inline r.1, r.2)
        else none
      else
        let (token, rest) := takeScalar cs
        (scalar? token).map fun v => (v, rest)

/-- The items of an array, from after its bracket or a comma. -/
def items? (depth : Nat) : (fuel : Nat) → List Char → Option (List Toml × List Char)
  | 0, _ => none
  | fuel + 1, cs =>
    match skipLines cs.length cs with
    | ']' :: rest => some ([], rest)
    | start =>
      match value? depth fuel start with
      | none => none
      | some (v, rest) =>
        match skipLines rest.length rest with
        | ']' :: rest => some ([v], rest)
        | ',' :: rest =>
          (items? depth fuel rest).map fun (r : List Toml × List Char) => (v :: r.1, r.2)
        | _ => none

/-- The entries of a table in braces, after those read so far. -/
def members? (depth : Nat) : (fuel : Nat) → Entries → List Char → Option (Entries × List Char)
  | 0, _, _ => none
  | fuel + 1, entries, cs =>
    match splitKey? (skipBlanks cs) with
    | some (path, name, '=' :: rest) =>
      match value? depth fuel (skipBlanks rest) with
      | none => none
      | some (v, rest) =>
        match entries.insert name v path, skipBlanks rest with
        | some entries, '\x7d' :: rest => some (entries, rest)
        | some entries, ',' :: rest => members? depth fuel entries rest
        | _, _ => none
    | _ => none

end

/-! ## Documents -/

/-- A document under way: all entries so far, and the path of the table that is open. -/
structure Reading where
  entries : Entries
  path : List String

/-- An entry of the open table. -/
def entry? (r : Reading) (cs : List Char) : Option (Reading × List Char) := do
  match ← splitKey? cs with
  | (path, name, '=' :: rest) =>
    let (v, rest) ← value? 0 (2 * rest.length + 2) (skipBlanks rest)
    let entries ← r.entries.changeAt (·.insert name v path) r.path
    return ({ r with entries }, rest)
  | _ => none

/-- A header, from after its bracket. -/
def header? (r : Reading) (cs : List Char) : Option (Reading × List Char) := do
  match cs with
  | '[' :: cs =>
    match ← splitKey? (skipBlanks cs) with
    | (path, name, ']' :: ']' :: rest) =>
      return (⟨← r.entries.changeAt (Entries.openElement name) path, path ++ [name]⟩, rest)
    | _ => none
  | _ =>
    match ← splitKey? (skipBlanks cs) with
    | (path, name, ']' :: rest) =>
      return (⟨← r.entries.changeAt (Entries.openTable name) path, path ++ [name]⟩, rest)
    | _ => none

/-- The lines of a document. -/
def lines? : (fuel : Nat) → Reading → List Char → Option Entries
  | 0, _, _ => none
  | fuel + 1, r, cs =>
    match skipLines cs.length cs with
    | [] => some r.entries
    | start => do
      let (r, rest) ← match start with
        | '[' :: rest => header? r rest
        | start => entry? r start
      lines? fuel r (← endOfLine? rest)

/-- The text without the mark of byte order in front. -/
def dropByteOrderMark : List Char → List Char
  | '\ufeff' :: cs => cs
  | cs => cs

/-- The entries of the document that a text writes. -/
def ofText? (text : String) : Option Entries :=
  let cs := dropByteOrderMark text.toList
  lines? (cs.length + 1) ⟨[], []⟩ cs

end Toml

end GeometricAlgebra

import StubGen.Toml.Scalar
import StubGen.Toml.Table

/-!
# TOML documents

A document is read line by line into assignments under headers, and these then fill the
document's table in order. A document with any fault gives no table at all.
-/

namespace StubGen.Toml

open Text (Reader isDigit)
open Text.Reader

/-- How deep arrays and tables in brackets may be nested. -/
def deepestNesting : Nat := 79

/-- The largest number of parts of a key. -/
def longestKey : Nat := 79

/-- Takes a comment up to the end of its line. -/
def comment : Reader Unit := do
  char '#'
  let _ ← run isPrintable

/-- Takes blank space, line breaks and comments, if there are any. -/
def gap : Reader Unit := do
  let _ ← many (oneOf [do let _ ← run1 isSpace, lineBreak, comment])

/-- Takes the end of a line, or stands at the end of the document. -/
def lineEnd : Reader Unit := oneOf [lineBreak, atEnd]

/-- Takes what may follow on the line after an assignment or a header. -/
def lineRest : Reader Unit := do
  spaces
  let _ ← attempt comment
  lineEnd

/-- Characters of a key without quotes. -/
def isBare (c : Char) : Bool :=
  ('A' ≤ c && c ≤ 'Z') || ('a' ≤ c && c ≤ 'z') || isDigit c || c == '-' || c == '_'

/-- Takes one part of a key, and spaces around it. -/
def keyPart : Reader String := do
  spaces
  let part ← oneOf [basicText, literalText, do pure (String.ofList (← run1 isBare))]
  spaces
  pure part

/-- Takes a key. -/
def key : Reader Key := do
  let first ← keyPart
  let further ← many do
    char '.'
    keyPart
  if further.length < longestKey then pure ⟨first, further⟩ else failure

/-- Takes a key, an equals sign and a value. -/
def assignment (value : Reader Value) : Reader Assignment := do
  let k ← key
  char '='
  spaces
  pure ⟨k, ← value⟩

/-- Takes an array. A comma may follow the last item. -/
def array (value : Reader Value) : Reader Value := do
  let item : Reader Value := do
    gap
    let v ← value
    gap
    pure v
  char '['
  let first ← attempt item
  let items ←
    match first with
    | none => pure []
    | some v => do
      let others ← many do
        char ','
        item
      let _ ← attempt (char ',')
      pure (v :: others)
  gap
  char ']'
  pure (.array items)

/-- Takes a table in curly brackets. It stands on one line, and no comma follows the last
entry. -/
def inlineTable (value : Reader Value) : Reader Value := do
  let entry : Reader Assignment := do
    let a ← assignment value
    spaces
    pure a
  char '\x7b'
  let first ← attempt entry
  let assignments ←
    match first with
    | none => pure []
    | some a => do
      let others ← many do
        char ','
        entry
      pure (a :: others)
  spaces
  char '\x7d'
  match Assignment.all assignments [] with
  | some entries => pure (.table .inlined entries)
  | none => failure

/-- Takes a value that is neither an array nor a table. -/
def scalar : Reader Value :=
  oneOf [do pure (.text (← text)), do exactly "true"; pure (.flag true),
    do exactly "false"; pure (.flag false), do quantity; pure .quantity]

/-- Takes a value. The first argument bounds the nesting. -/
def value : Nat → Reader Value
  | 0 => fun cs => scalar cs
  | depth + 1 => fun cs =>
    oneOf [scalar, array (fun rest => value depth rest),
      inlineTable (fun rest => value depth rest)] cs

/-- Takes blank lines and comments, if there are any, and spaces before what follows. -/
def blankLines : Reader Unit := do
  let _ ← many (oneOf [do let _ ← run1 isSpace, lineBreak, do comment; lineEnd])

/-- Takes an assignment on a line of its own. -/
def assignmentLine : Reader Assignment := do
  let a ← assignment (value deepestNesting)
  lineRest
  blankLines
  pure a

/-- Takes a header. -/
def header : Reader (Key × Bool) := fun cs =>
  if ['[', '['].isPrefixOf cs then
    (do exactly "[["; let k ← key; exactly "]]"; lineRest; pure (k, true)) cs
  else (do char '['; let k ← key; char ']'; lineRest; pure (k, false)) cs

/-- Takes a header and the assignments below it. -/
def section? : Reader Section := do
  let (k, collects) ← header
  blankLines
  let assignments ← many assignmentLine
  pure { key := k, collects, assignments }

/-- Takes a whole document. -/
def document : Reader Entries := do
  let _ ← attempt (char '\ufeff')
  blankLines
  let assignments ← many assignmentLine
  let sections ← many section?
  match (Assignment.all assignments []).bind fun top => sections.foldlM Section.addTo top with
  | some entries => pure entries
  | none => failure

/-- The table that a document writes. -/
def ofText? (source : String) : Option Entries := whole? document source

end StubGen.Toml

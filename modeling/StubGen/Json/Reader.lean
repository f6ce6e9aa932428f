import StubGen.Json
import StubGen.Text.Reader

/-!
# Reading JSON

The strict grammar: nothing but blank space may follow the value, control characters have
to be escaped, and numbers do not start with needless zeros.
-/

namespace StubGen.Json

open Text (Reader isDigit)
open Text.Reader

/-- The blank characters of the format. -/
def isBlank (c : Char) : Bool := c == ' ' || c == '\t' || c == '\n' || c == '\r'

/-- Takes blank characters, if there are any. -/
def blanks : Reader Unit := do
  let _ ← run isBlank

/-- Takes a number as it is written. -/
def numberText : Reader String := do
  let sign ← attempt (char '-')
  let whole ← oneOf [do char '0'; pure ['0'], run1 isDigit]
  let fraction ← attempt do
    char '.'
    run1 isDigit
  let power ← attempt do
    let mark ← one fun c => c == 'e' || c == 'E'
    let sign ← attempt (one fun c => c == '+' || c == '-')
    let ds ← run1 isDigit
    pure (mark :: sign.toList ++ ds)
  pure (String.ofList ((if sign.isSome then ['-'] else []) ++ whole ++
    (match fraction with
      | some ds => '.' :: ds
      | none => []) ++ power.getD []))

/-- A number that is the first half of a surrogate pair. -/
def isHighSurrogate (n : Nat) : Bool := 0xD800 ≤ n && n ≤ 0xDBFF

/-- A number that is the second half of a surrogate pair. -/
def isLowSurrogate (n : Nat) : Bool := 0xDC00 ≤ n && n ≤ 0xDFFF

/-- Takes four hexadecimal digits after the mark of an escape. -/
def unitEscape : Reader Nat := do
  exactly "\\u"
  hexNumber 4

/-- Takes an escape. It stands for no character if it is one half of a surrogate pair. -/
def escape : Reader (Option Char) := fun cs =>
  match cs with
  | '\\' :: '"' :: rest => some (some '"', rest)
  | '\\' :: '\\' :: rest => some (some '\\', rest)
  | '\\' :: '/' :: rest => some (some '/', rest)
  | '\\' :: 'b' :: rest => some (some '\x08', rest)
  | '\\' :: 'f' :: rest => some (some '\x0c', rest)
  | '\\' :: 'n' :: rest => some (some '\n', rest)
  | '\\' :: 'r' :: rest => some (some '\r', rest)
  | '\\' :: 't' :: rest => some (some '\t', rest)
  | _ =>
    (do
      let high ← unitEscape
      if isHighSurrogate high then
        match ← attempt unitEscape with
        | some low =>
          if isLowSurrogate low then
            pure (Text.charOfNat? (0x10000 + (high - 0xD800) * 0x400 + (low - 0xDC00)))
          else pure none
        | none => pure none
      else pure (Text.charOfNat? high) : Reader (Option Char)) cs

/-- Takes a character between double quotes. -/
def textPiece : Reader (Option Char) :=
  oneOf [do pure (some (← one fun c => ' ' ≤ c && c != '"' && c != '\\')), escape]

/-- Takes a text. -/
def quotedText : Reader (Option String) := do
  char '"'
  let pieces ← many textPiece
  char '"'
  pure ((pieces.mapM id).map String.ofList)

/-- Takes items between brackets, with commas between them and blanks around them. -/
def listed {α : Type} (left right : Char) (item : Reader α) : Reader (List α) := do
  let spaced : Reader α := do
    blanks
    let a ← item
    blanks
    pure a
  char left
  let first ← attempt spaced
  let items ←
    match first with
    | none => pure []
    | some a => do
      let others ← many do
        char ','
        spaced
      pure (a :: others)
  blanks
  char right
  pure items

/-- Takes a key and its value. -/
def member (value : Reader Json) : Reader (Option String × Json) := do
  let key ← quotedText
  blanks
  char ':'
  blanks
  pure (key, ← value)

/-- Takes a value. The first argument bounds the nesting. -/
def value : Nat → Reader Json
  | 0 => fun _ => none
  | depth + 1 => fun cs =>
    oneOf [do exactly "null"; pure null, do exactly "true"; pure (flag true),
      do exactly "false"; pure (flag false), do pure (number (← numberText)),
      do pure (text (← quotedText)),
      do pure (array (← listed '[' ']' fun rest => value depth rest)),
      do pure (object (← listed '\x7b' '\x7d' (member fun rest => value depth rest)))] cs

/-- Takes a value with blanks around it. -/
def document : Reader Json := fun cs =>
  (do
    blanks
    let v ← value (cs.length + 1)
    blanks
    pure v : Reader Json) cs

/-- The value that a text writes. -/
def ofText? (source : String) : Option Json := whole? document source

/-! ## Contents of values -/

/-- The content of a text. -/
def string? : Json → Option String
  | text content => content
  | _ => none

/-- The number that is written without sign, fraction and exponent. -/
def nat? : Json → Option Nat
  | number written =>
    if written.toList.all isDigit then some (Text.numberOf 10 written.toList) else none
  | _ => none

end StubGen.Json

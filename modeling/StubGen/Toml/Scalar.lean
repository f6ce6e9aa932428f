import StubGen.Text.Reader

/-!
# TOML texts, numbers and dates

The four forms of texts, and the forms of numbers and dates. Of numbers and dates only
the form matters here: their readers check it and yield nothing.
-/

namespace StubGen.Toml

open Text (Reader isDigit numberOf)
open Text.Reader

/-- Characters that may stand in a comment: no control characters but tabs. -/
def isPrintable (c : Char) : Bool := c == '\t' || (' ' ≤ c && c != '\x7f')

/-- Characters that stand for themselves between double quotes. -/
def isBasic (c : Char) : Bool := isPrintable c && c != '"' && c != '\\'

/-- Characters that may stand between single quotes. -/
def isLiteral (c : Char) : Bool := isPrintable c && c != '\''

/-- Spaces and tabs. -/
def isSpace (c : Char) : Bool := c == ' ' || c == '\t'

/-- Takes spaces and tabs, if there are any. -/
def spaces : Reader Unit := do
  let _ ← run isSpace

/-- Takes a line break, with or without a carriage return. -/
def lineBreak : Reader Unit := oneOf [char '\n', exactly "\r\n"]

/-- Takes spaces, tabs and line breaks, if there are any. -/
def spacesAndLines : Reader Unit := do
  let _ ← many (oneOf [do let _ ← run1 isSpace, lineBreak])

/-! ## Texts -/

/-- Takes a code point of the given number of hexadecimal digits. -/
def codePoint (digits : Nat) : Reader Char := do
  match Text.charOfNat? (← hexNumber digits) with
  | some c => pure c
  | none => failure

/-- Takes an escape. -/
def escape : Reader Char := do
  char '\\'
  match ← one fun _ => true with
  | 'b' => pure '\x08'
  | 't' => pure '\t'
  | 'n' => pure '\n'
  | 'f' => pure '\x0c'
  | 'r' => pure '\r'
  | '"' => pure '"'
  | '\\' => pure '\\'
  | 'u' => codePoint 4
  | 'U' => codePoint 8
  | _ => failure

/-- Takes a text in double quotes. -/
def basicText : Reader String := do
  char '"'
  let content ← many (oneOf [one isBasic, escape])
  char '"'
  pure (String.ofList content)

/-- Takes a text in single quotes. -/
def literalText : Reader String := do
  char '\''
  let content ← run isLiteral
  char '\''
  pure (String.ofList content)

/-- Takes one or two quotes that do not end a text of several lines. -/
def innerQuotes (quote : Char) : Reader (List Char) := do
  let quotes ← run (· == quote)
  if quotes.length = 1 ∨ quotes.length = 2 then pure quotes else failure

/-- Takes the three quotes that end a text of several lines, and yields up to two quotes
before them that belong to the text. -/
def closingQuotes (quote : Char) : Reader (List Char) := do
  let quotes ← run (· == quote)
  if 3 ≤ quotes.length ∧ quotes.length ≤ 5 then pure (quotes.drop 3) else failure

/-- Takes a line break inside a text. -/
def innerLineBreak : Reader (List Char) := do
  lineBreak
  pure ['\n']

/-- Takes a backslash at the end of a line and all blank space after it. -/
def joinedLine : Reader (List Char) := do
  char '\\'
  spaces
  lineBreak
  spacesAndLines
  pure []

/-- Takes a text of several lines, given its quote and the reader of its pieces. -/
def linesText (quote : Char) (piece : Reader (List Char)) : Reader String := do
  exactly (String.ofList [quote, quote, quote])
  let _ ← attempt lineBreak
  let content ← many (oneOf [piece, innerLineBreak, innerQuotes quote])
  let last ← closingQuotes quote
  pure (String.ofList (content.flatten ++ last))

/-- Takes a text of several lines in double quotes. -/
def basicLines : Reader String :=
  linesText '"' (oneOf [run1 isBasic, joinedLine, do pure [← escape]])

/-- Takes a text of several lines in single quotes. -/
def literalLines : Reader String := linesText '\'' (run1 isLiteral)

/-- Takes a text in any form. -/
def text : Reader String := fun cs =>
  if (['"', '"', '"'] : List Char).isPrefixOf cs then basicLines cs
  else if ['\'', '\'', '\''].isPrefixOf cs then literalLines cs
  else oneOf [basicText, literalText] cs

/-! ## Numbers -/

/-- Takes digits of a class. Single underscores may stand between them. -/
def digits (wanted : Char → Bool) : Reader (List Char) := do
  let first ← one wanted
  let others ← many (oneOf [one wanted, do char '_'; one wanted])
  pure (first :: others)

/-- Takes a sign, if there is one, and tells whether it is a minus. -/
def sign : Reader Bool := do
  match ← attempt (one fun c => c == '+' || c == '-') with
  | some '-' => pure true
  | _ => pure false

/-- Takes the digits of a whole number, which do not start with a zero unless it is the only
one. -/
def wholeDigits : Reader (List Char) := fun cs =>
  match cs with
  | '0' :: rest => some (['0'], rest)
  | _ => digits isDigit cs

/-- The largest whole number. -/
def largestWhole : Nat := 9223372036854775807

/-- Whether `m` times ten to the power `e` is rounded to infinity as a binary fraction of
double precision. `length` is the number of digits of `m`. -/
def roundsToInfinity (m length : Nat) (e : Int) : Bool :=
  let bound := Nat.pow 2 1024 - Nat.pow 2 970
  if m = 0 ∨ length + e < 309 then false
  else if 309 < length + e then true
  else if 0 ≤ e then bound ≤ m * Nat.pow 10 e.toNat
  else bound * Nat.pow 10 (-e).toNat ≤ m

/-- Takes the exponent of a number. -/
def exponent : Reader Int := do
  let _ ← one fun c => c == 'e' || c == 'E'
  let negative ← sign
  let magnitude := numberOf 10 (← digits isDigit)
  pure (if negative then -magnitude else magnitude)

/-- Takes a number in decimal digits. Whole numbers have to fit into 64 bits, and other
numbers may not be too large. -/
def decimalNumber : Reader Unit := do
  let negative ← sign
  let whole ← wholeDigits
  let fraction ← attempt do
    char '.'
    digits isDigit
  let power ← attempt exponent
  match fraction, power with
  | none, none =>
    let limit := if negative then largestWhole + 1 else largestWhole
    if numberOf 10 whole ≤ limit then pure () else failure
  | _, _ =>
    let places := fraction.getD []
    let significant := (whole ++ places).dropWhile (· == '0')
    let e := power.getD 0 - places.length
    if !negative && roundsToInfinity (numberOf 10 significant) significant.length e then failure
    else pure ()

/-- Takes a whole number that starts with the mark of another base. -/
def baseNumber (mark : String) (base : Nat) : Reader Unit := do
  exactly mark
  let ds ← digits fun c => (Text.hexDigit? c).any fun digit => digit < base
  if numberOf base ds ≤ largestWhole then pure () else failure

/-- Takes infinity or the mark of an undefined number. -/
def specialNumber : Reader Unit := do
  let _ ← sign
  oneOf [exactly "inf", exactly "nan"]

/-! ## Dates -/

/-- Takes a number of exactly so many digits that lies between two bounds. -/
def fixedNumber (width low high : Nat) : Reader Nat := fun cs =>
  let ds := cs.take width
  if ds.length = width ∧ ds.all isDigit ∧ low ≤ numberOf 10 ds ∧ numberOf 10 ds ≤ high then
    some (numberOf 10 ds, cs.drop width)
  else none

/-- The number of days of a month. -/
def daysIn (year month : Nat) : Nat :=
  if month = 2 then
    if year % 4 = 0 ∧ (year % 100 ≠ 0 ∨ year % 400 = 0) then 29 else 28
  else if month = 4 ∨ month = 6 ∨ month = 9 ∨ month = 11 then 30
  else 31

/-- Takes a day. -/
def date : Reader Unit := do
  let year ← fixedNumber 4 0 9999
  char '-'
  let month ← fixedNumber 2 1 12
  char '-'
  let _ ← fixedNumber 2 1 (daysIn year month)

/-- Takes a time of day. -/
def time : Reader Unit := do
  let _ ← fixedNumber 2 0 23
  char ':'
  let _ ← fixedNumber 2 0 59
  char ':'
  let _ ← fixedNumber 2 0 60
  let _ ← attempt do
    char '.'
    run1 isDigit

/-- Takes an offset from universal time. -/
def offset : Reader Unit :=
  oneOf [do let _ ← one fun c => c == 'Z' || c == 'z',
    do
      let _ ← one fun c => c == '+' || c == '-'
      let _ ← fixedNumber 2 0 23
      char ':'
      let _ ← fixedNumber 2 0 59]

/-- Takes a day with or without a time, or a time alone. -/
def moment : Reader Unit :=
  oneOf
    [do
      date
      let _ ← attempt do
        let _ ← one fun c => c == 'T' || c == 't' || c == ' '
        time
        attempt offset,
    time]

/-- Takes a number or a date. -/
def quantity : Reader Unit :=
  oneOf [moment, baseNumber "0x" 16, baseNumber "0o" 8, baseNumber "0b" 2, specialNumber,
    decimalNumber]

end StubGen.Toml

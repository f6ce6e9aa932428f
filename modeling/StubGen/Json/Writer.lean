import StubGen.Json
import StubGen.Text.Pieces

/-!
# Writing JSON

Values are written over several lines, two spaces deeper at every level, with one space
after the colon and no line break at the end. Empty arrays and objects stand on one line.
-/

namespace StubGen.Json

/-- The hexadecimal digit of a number below sixteen. -/
def hexDigit (n : Nat) : Char := Nat.digitChar n

/-- A character between double quotes. Quotes, backslashes and control characters are
escaped, and nothing else. -/
def escaped (c : Char) : List Char :=
  if c = '"' then ['\\', '"']
  else if c = '\\' then ['\\', '\\']
  else if c = '\x08' then ['\\', 'b']
  else if c = '\x0c' then ['\\', 'f']
  else if c = '\n' then ['\\', 'n']
  else if c = '\r' then ['\\', 'r']
  else if c = '\t' then ['\\', 't']
  else if c < ' ' then ['\\', 'u', '0', '0', hexDigit (c.toNat / 16), hexDigit (c.toNat % 16)]
  else [c]

/-- A text between double quotes. -/
def quoted (s : String) : String := String.ofList (['"'] ++ s.toList.flatMap escaped ++ ['"'])

/-- A line break and the indentation of a level. -/
def lineStart (level : Nat) : String :=
  String.ofList ('\n' :: List.replicate (2 * level) ' ')

/-- Written items between brackets, each on a line of its own. -/
def bracketed (left right : String) (level : Nat) : List String → String
  | [] => left ++ right
  | items =>
    left ++ lineStart (level + 1) ++ Text.joined ("," ++ lineStart (level + 1)) items ++
      lineStart level ++ right

mutual

/-- A value at a level. -/
def writeAt (level : Nat) : Json → String
  | null => "null"
  | flag true => "true"
  | flag false => "false"
  | number written => written
  | text content => quoted (content.getD "")
  | array items => bracketed "[" "]" level (writeItems (level + 1) items)
  | object members => bracketed "\x7b" "\x7d" level (writeMembers (level + 1) members)

/-- The items of an array. -/
def writeItems (level : Nat) : List Json → List String
  | [] => []
  | item :: items => writeAt level item :: writeItems level items

/-- The members of an object. -/
def writeMembers (level : Nat) : List (Option String × Json) → List String
  | [] => []
  | (key, value) :: members =>
    (quoted (key.getD "") ++ ": " ++ writeAt level value) :: writeMembers level members

end

/-- The text of a value. -/
def write (v : Json) : String := writeAt 0 v

end StubGen.Json

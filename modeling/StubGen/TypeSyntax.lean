import StubGen.Text.Blank
import StubGen.Text.Pieces

/-!
# Types as written

A type reference is a keyword type or any other text without its blanks.
-/

namespace StubGen

/-- The types that have a keyword of their own. -/
inductive KeywordType where
  | void
  | string
  | bool
  | int
  | long
  | double
  | char
  | object
deriving DecidableEq, Repr, Inhabited

namespace KeywordType

/-- Every keyword type. -/
def all : List KeywordType := [void, string, bool, int, long, double, char, object]

/-- The keyword. -/
def keyword : KeywordType → String
  | void => "void"
  | string => "string"
  | bool => "bool"
  | int => "int"
  | long => "long"
  | double => "double"
  | char => "char"
  | object => "object"

/-- The type with the given keyword. -/
def ofKeyword? (text : String) : Option KeywordType :=
  all.find? fun k => k.keyword == text

end KeywordType

/-- A type reference in a declaration. -/
inductive TypeSyntax where
  | keyword (type : KeywordType)
  /-- Any other type, as written but without blanks. -/
  | named (text : String)
deriving DecidableEq, Repr, Inhabited

namespace TypeSyntax

/-- The type that a source text stands for. -/
def parse (text : String) : TypeSyntax :=
  match KeywordType.ofKeyword? (Text.compact text) with
  | some type => keyword type
  | none => named (Text.compact text)

/-- The type under a trailing `?`, if one was written. -/
def withoutNullable? : TypeSyntax → Option TypeSyntax
  | keyword _ => none
  | named text => (Text.beforeEnd? "?" text).map parse

/-- Whether the type is the keyword `void`. -/
def isVoid (t : TypeSyntax) : Bool := t == keyword .void

/-- The type as source text. -/
def display : TypeSyntax → String
  | keyword type => type.keyword
  | named text => text

end TypeSyntax

end StubGen

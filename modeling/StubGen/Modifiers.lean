import StubGen.Text.Pieces

/-!
# Modifiers of a declaration

The tokens keep their source order. A set that was read from source also keeps the text
from its first token to its last, comments and spacing included; that text is what is
copied into generated code.
-/

namespace StubGen

/-- The modifier tokens of a declaration, in source order. -/
structure Modifiers where
  tokens : List String := []
  /-- The source text from the first token to the last. -/
  written : Option String := none
deriving DecidableEq, Repr, Inhabited

namespace Modifiers

/-- On a type: open for generated members. On a method: the body is supplied elsewhere. -/
def partialToken : String := "partial"

/-- Declared without an instance. -/
def staticToken : String := "static"

/-- On a using directive: an import for every file. -/
def globalToken : String := "global"

/-- On a parameter: any number of arguments. -/
def paramsToken : String := "params"

/-- The set of the given tokens, not tied to a source text. -/
def ofTokens (tokens : List String) : Modifiers := { tokens }

/-- The same tokens under the given source text. -/
def withWritten (m : Modifiers) (text : String) : Modifiers := { m with written := some text }

/-- One more token at the end. No source text matches the set any longer. -/
def push (m : Modifiers) (token : String) : Modifiers := { tokens := m.tokens ++ [token] }

/-- Exact membership of a token. -/
def contains (m : Modifiers) (token : String) : Bool := m.tokens.contains token

/-- Whether no modifier was written. -/
def isEmpty (m : Modifiers) : Bool := m.tokens.isEmpty

/-- The modifiers as they are copied into code: as written, or the tokens with single
spaces between them. -/
def text (m : Modifiers) : String :=
  m.written.getD (Text.joined " " m.tokens)

end Modifiers

end StubGen

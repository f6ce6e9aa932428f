/-!
# Syntax errors

A syntax error records its cause, where it was found and the source it was found in. The
texts shown to a user are derived from the cause.
-/

namespace StubGen

/-- A stretch of source text: its first byte and its number of bytes. -/
structure Stretch where
  offset : Nat
  length : Nat
deriving DecidableEq, Repr, Inhabited

/-- A source text under the name by which messages refer to it. -/
structure NamedSource where
  name : String
  text : String
deriving DecidableEq, Repr, Inhabited

/-- A pair of an opening and a closing character. -/
structure Delimiter where
  opening : Char
  closing : Char
deriving DecidableEq, Repr, Inhabited

/-- A syntax error. -/
inductive SyntaxError where
  /-- Text that is not valid at its place. -/
  | unexpectedToken (token : String) (place : Stretch) (source : NamedSource)
  /-- A token that the grammar requires and that is absent. -/
  | missingToken (expected found : String) (place : Stretch) (source : NamedSource)
  /-- An opening delimiter without its partner. -/
  | unclosedDelimiter (delimiter : Delimiter) (opening expectedClose : Stretch)
      (source : NamedSource)
  /-- A malformed construct. -/
  | invalidSyntax (construct : String) (suggestion : Option String) (place : Stretch)
      (source : NamedSource)
  /-- No tree could be produced at all. -/
  | parseFailed (reason : String)
deriving DecidableEq, Repr, Inhabited

namespace SyntaxError

/-- The text in backquotes, as messages quote source text. -/
def quoted (text : String) : String := "`" ++ text ++ "`"

/-- The message. -/
def message : SyntaxError → String
  | unexpectedToken token _ _ => "unexpected token " ++ quoted token
  | missingToken expected found _ _ => "expected " ++ quoted expected ++ ", found " ++ quoted found
  | unclosedDelimiter _ _ _ _ => "this file contains an unclosed delimiter"
  | invalidSyntax construct _ _ _ => "invalid " ++ construct
  | parseFailed reason => "failed to parse source: " ++ reason

/-- The code under which the kind of error is documented. -/
def code : SyntaxError → String
  | unexpectedToken .. => "parser::unexpected_token"
  | missingToken .. => "parser::missing_token"
  | unclosedDelimiter .. => "parser::unclosed_delimiter"
  | invalidSyntax .. => "parser::invalid_syntax"
  | parseFailed _ => "parser::parse_failed"

/-- Advice for mending the error. -/
def help : SyntaxError → Option String
  | unexpectedToken .. => some "this token is not valid here"
  | missingToken expected _ _ _ => some ("try adding " ++ quoted expected ++ " here")
  | unclosedDelimiter .. => none
  | invalidSyntax _ suggestion _ _ => suggestion
  | parseFailed _ => none

/-- The marked places with their captions. -/
def labels : SyntaxError → List (Stretch × String)
  | unexpectedToken _ place _ => [(place, "unexpected token")]
  | missingToken expected _ place _ => [(place, "expected " ++ quoted expected ++ " here")]
  | unclosedDelimiter delimiter opening expectedClose _ =>
    [(opening, "unclosed delimiter"),
      (expectedClose, "expected " ++ quoted (String.singleton delimiter.closing))]
  | invalidSyntax construct _ place _ => [(place, construct ++ " is invalid")]
  | parseFailed _ => []

/-- The source in which the error was found. -/
def source? : SyntaxError → Option NamedSource
  | unexpectedToken _ _ source => some source
  | missingToken _ _ _ source => some source
  | unclosedDelimiter _ _ _ source => some source
  | invalidSyntax _ _ _ source => some source
  | parseFailed _ => none

/-- The offset of the main place. For an unclosed delimiter that is the place where it
should have been closed. -/
def offset? : SyntaxError → Option Nat
  | unexpectedToken _ place _ => some place.offset
  | missingToken _ _ place _ => some place.offset
  | unclosedDelimiter _ _ expectedClose _ => some expectedClose.offset
  | invalidSyntax _ _ place _ => some place.offset
  | parseFailed _ => none

/-- The same error in another named source. -/
def withSource (source : NamedSource) : SyntaxError → SyntaxError
  | unexpectedToken token place _ => unexpectedToken token place source
  | missingToken expected found place _ => missingToken expected found place source
  | unclosedDelimiter delimiter opening expectedClose _ =>
    unclosedDelimiter delimiter opening expectedClose source
  | invalidSyntax construct suggestion place _ => invalidSyntax construct suggestion place source
  | parseFailed reason => parseFailed reason

end SyntaxError

end StubGen

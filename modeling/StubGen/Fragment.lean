import StubGen.Text.Pieces

/-!
# Fragments

A fragment is a generated source file. Its text has four spaces of indentation, line feeds
between lines and none at the end.
-/

namespace StubGen

/-- A generated source file. -/
structure Fragment where
  /-- The file name, unique within a pass. -/
  hintName : String
  sourceText : String
deriving DecidableEq, Repr, Inhabited

/-- The slots of a fragment's text. -/
structure Template where
  /-- The namespace; its line is left out when this is empty. -/
  inNamespace : String
  typeKeyword : String
  typeName : String
  /-- Documentation lines above the method. -/
  methodDocs : List String := []
  /-- The modifiers of the method, exactly as they are to appear. -/
  modifiers : String
  methodName : String
  /-- The name of the only parameter, a string. -/
  parameterName : String
deriving DecidableEq, Repr, Inhabited

namespace Template

/-- One step of indentation. -/
def indent : String := "    "

/-- The line of the method declaration. -/
def methodLine (t : Template) : String :=
  indent ++ t.modifiers ++ " void " ++ t.methodName ++ "(string " ++ t.parameterName ++ ")"

/-- The line of the method body, which greets the parameter. -/
def bodyLine (t : Template) : String :=
  indent ++ indent ++ "=> global::System.Console.WriteLine($\"Hello, \x7b" ++
    t.parameterName ++ "\x7d!\");"

/-- The lines of the text. -/
def lines (t : Template) : List String :=
  ["// <auto-generated/>", "", "#nullable enable"] ++
    (if t.inNamespace = "" then [] else ["namespace " ++ t.inNamespace ++ ";"]) ++
    ["", "partial " ++ t.typeKeyword ++ " " ++ t.typeName, "\x7b"] ++
    t.methodDocs.map (indent ++ ·) ++
    [t.methodLine, t.bodyLine, "\x7d"]

/-- The text. -/
def render (t : Template) : String := Text.joined "\n" t.lines

end Template

end StubGen

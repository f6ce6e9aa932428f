import StubGen.SyntaxError.Collect
import StubGen.Tree.OfConcrete

/-!
# Parsed files

Parsing tolerates errors: a file with syntax errors still has a declaration tree, and the
errors stand beside it. The grammar itself comes from outside, as a function from texts to
concrete trees.
-/

namespace StubGen

/-- The language of the files. -/
def languageName : String := "csharp"

/-- What follows the last dot in the names of the files. -/
def sourceExtension : String := "cs"

/-- What parsing a file yields. -/
structure Parsed where
  tree : Option Tree
  errors : List SyntaxError

/-- A parser of C# files. -/
abbrev Parser := FileId → String → Parsed

namespace Parsed

/-- Whether the file parsed without any error. -/
def isClean (p : Parsed) : Bool := p.tree.isSome && p.errors.isEmpty

/-- What the concrete tree of a file yields. -/
def ofConcrete (file : FileId) (source : String) (c : Concrete) : Parsed where
  tree := some (Tree.ofConcrete file source c)
  errors := SyntaxError.ofConcrete source c

end Parsed

/-- The concrete tree of a text, or the reason why there is none. -/
abbrev Grammar := String → Except String Concrete

/-- The parser that a grammar gives. -/
def Grammar.parser (grammar : Grammar) : Parser := fun file source =>
  match grammar source with
  | .ok c => Parsed.ofConcrete file source c
  | .error reason => { tree := none, errors := [.parseFailed reason] }

end StubGen

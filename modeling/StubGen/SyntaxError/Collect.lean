import StubGen.Concrete
import StubGen.SyntaxError

/-!
# Syntax errors of a concrete tree

Every flagged node of a concrete tree gives one error, in pre-order. What the error says
depends on the node, on its parent, and on whether the parent's text holds the opening
character of the delimiter that seems to be missing.
-/

namespace StubGen

/-- The source of errors whose file has no name yet. -/
def NamedSource.input (text : String) : NamedSource := ⟨"<input>", text⟩

/-- Round brackets. -/
def Delimiter.round : Delimiter := ⟨'(', ')'⟩

/-- Curly brackets. -/
def Delimiter.curly : Delimiter := ⟨'\x7b', '\x7d'⟩

/-- Square brackets. -/
def Delimiter.square : Delimiter := ⟨'[', ']'⟩

/-- The delimiter that the given token closes. -/
def Delimiter.closedBy? (token : String) : Option Delimiter :=
  [round, curly, square].find? fun d => String.singleton d.closing == token

namespace SyntaxError

/-- The number of bytes before the first occurrence of a character. -/
def bytesBefore? (c : Char) : List Char → Option Nat
  | [] => none
  | d :: rest => if d = c then some 0 else (bytesBefore? c rest).map (d.utf8Size + ·)

/-- The place of the first occurrence of a character in the text of a node. -/
def findIn? (source : String) (node : ConcreteNode) (c : Char) : Option Stretch := do
  let chars ← Text.slice? source node.start node.stop
  let before ← bytesBefore? c chars
  some ⟨node.start + before, 1⟩

/-- The error for a node whose text does not belong where it is. -/
def ofUnexpected (source : String) (node : ConcreteNode) : SyntaxError :=
  unexpectedToken (Text.firstLine (node.text source).toList)
    ⟨node.start, node.stop - node.start⟩ (.input source)

/-- The error for an error node, given the node's parent. -/
def ofErrorNode (source : String) (parent : Option ConcreteNode) (node : ConcreteNode) :
    SyntaxError :=
  let place : Stretch := ⟨node.start, node.stop - node.start⟩
  let unclosed (parent : ConcreteNode) (delimiter : Delimiter) :=
    (findIn? source parent delimiter.opening).map fun opening =>
      unclosedDelimiter delimiter opening place (.input source)
  match parent with
  | none => ofUnexpected source node
  | some parent =>
    if parent.kind == "parameter_list" || parent.kind == "argument_list" then
      (unclosed parent .round).getD (ofUnexpected source node)
    else if parent.kind == "declaration_list" || parent.kind == "block" then
      (unclosed parent .curly).getD
        (invalidSyntax "member list"
          (some "type members must be enclosed in braces `\x7b\x7d`") place (.input source))
    else if parent.kind == "method_declaration" then
      invalidSyntax "method declaration"
        (some ("method declarations have the form: " ++
          "`modifiers return_type Name(parameters) \x7b body \x7d`"))
        place (.input source)
    else ofUnexpected source node

/-- The error for a missing node, given the node's parent. -/
def ofMissingNode (source : String) (parent : Option ConcreteNode) (node : ConcreteNode) :
    SyntaxError :=
  let place : Stretch := ⟨node.start, 1⟩
  let unclosed := do
    let delimiter ← Delimiter.closedBy? node.kind
    let parent ← parent
    let opening ← findIn? source parent delimiter.opening
    some (unclosedDelimiter delimiter opening place (.input source))
  let found := (Text.dropBytes source.toList node.start).bind Text.firstWord?
  unclosed.getD
    (missingToken node.kind (found.getD "end of file") place (.input source))

/-- The error for a node, if the node is flagged. An error node that is also missing counts
as an error node. -/
def ofNode? (source : String) (parent : Option ConcreteNode) (node : ConcreteNode) :
    Option SyntaxError :=
  if node.isError then some (ofErrorNode source parent node)
  else if node.isMissing then some (ofMissingNode source parent node)
  else none

/-- The errors in a sequence of trees with the given parent, in pre-order. -/
def ofForest (source : String) (parent : Option ConcreteNode) :
    Forest ConcreteNode → List SyntaxError
  | .nil => []
  | .cons node below rest =>
    (ofNode? source parent node).toList ++ ofForest source (some node) below ++
      ofForest source parent rest

/-- The errors of a concrete tree. -/
def ofConcrete (source : String) (c : Concrete) : List SyntaxError :=
  if c.hasError then ofForest source none (.cons c.node c.below .nil) else []

end SyntaxError

end StubGen

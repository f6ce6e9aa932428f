import StubGen.Forest
import StubGen.Text.Blank
import StubGen.Text.Pieces
import StubGen.Text.Slice

/-!
# Concrete syntax trees

The result of a C# parser, which is not part of this library. Every node has the
grammar's kind, its byte range in the source, and possibly the name of the field that it
fills in its parent. Nodes that stand for punctuation and keywords are unnamed. Parsing
never fails: text that does not fit is wrapped into error nodes, and tokens that the
grammar needed but did not find are present as missing nodes without text.
-/

namespace StubGen

/-- What is known of one node of a concrete tree, apart from its children. -/
structure ConcreteNode where
  kind : String
  /-- Whether the node stands for more than a fixed piece of text. -/
  named : Bool
  isError : Bool
  isMissing : Bool
  start : Nat
  stop : Nat
  field : Option String
deriving DecidableEq, Repr, Inhabited

namespace ConcreteNode

/-- Whether the node was made up or skipped over by the parser. -/
def flagged (node : ConcreteNode) : Bool := node.isError || node.isMissing

/-- Whether the node is the fixed text `keyword`. -/
def isKeyword (keyword : String) (node : ConcreteNode) : Bool :=
  !node.named && node.kind == keyword

/-- Whether the node is named and of the given kind. -/
def isNamed (kind : String) (node : ConcreteNode) : Bool :=
  node.named && node.kind == kind

/-- Whether the node fills the given field. -/
def fills (field : String) (node : ConcreteNode) : Bool :=
  node.field == some field

/-- The source text of the node, empty if its range is none of the source. -/
def text (source : String) (node : ConcreteNode) : String :=
  Text.slice source node.start node.stop

/-- The source text of the node without blanks. -/
def compactText (source : String) (node : ConcreteNode) : String :=
  Text.compact (node.text source)

end ConcreteNode

/-- A concrete tree: a node and the trees below it. -/
structure Concrete where
  node : ConcreteNode
  below : Forest ConcreteNode
deriving Repr, DecidableEq, Inhabited

namespace Concrete

/-- The trees directly below. -/
def children (c : Concrete) : List Concrete :=
  c.below.trees.map fun child => ⟨child.1, child.2⟩

/-- The named trees directly below. -/
def namedChildren (c : Concrete) : List Concrete :=
  c.children.filter (·.node.named)

/-- The first child that fills the field. -/
def field? (c : Concrete) (name : String) : Option Concrete :=
  c.children.find? (·.node.fills name)

/-- The first named child of the kind. -/
def namedChild? (c : Concrete) (kind : String) : Option Concrete :=
  c.children.find? (·.node.isNamed kind)

/-- Whether a child is the given keyword. -/
def hasKeyword (c : Concrete) (keyword : String) : Bool :=
  c.children.any (·.node.isKeyword keyword)

/-- The source text of the child that fills the field, without blanks; empty without such
a child. -/
def fieldText (source : String) (c : Concrete) (name : String) : String :=
  ((c.field? name).map (·.node.compactText source)).getD ""

/-- Whether the parser made up or skipped over any node. -/
def hasError (c : Concrete) : Bool :=
  c.node.flagged || c.below.labels.any (·.flagged)

end Concrete

end StubGen

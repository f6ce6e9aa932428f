import StubGen.Model

/-!
# Annotated declarations

Finds the declarations that carry an attribute of a given class. A node whose attributes
do not even share the simple name of the class is passed over first; then a structural
predicate is asked; only then are names resolved.
-/

namespace StubGen

/-- The symbol that an annotated node declares. -/
inductive TargetSymbol where
  | method (symbol : MethodSymbol)
  | type (symbol : NamedType)
deriving DecidableEq, Repr, Inhabited

/-- The method, if the target is one. -/
def TargetSymbol.method? : TargetSymbol → Option MethodSymbol
  | method symbol => some symbol
  | type _ => none

/-- An attribute application that was found to be of the class. -/
structure BoundAttribute where
  /-- The full name of the class. -/
  className : String
  written : Declaration.Attribute
deriving DecidableEq, Repr, Inhabited

/-- An annotated declaration. -/
structure Annotated where
  node : NodeRef
  symbol : TargetSymbol
  /-- The applications of the class, in source order. -/
  attributes : List BoundAttribute

namespace NodeRef

/-- Whether an attribute of the node has the simple name of the class. -/
def namesAttribute (n : NodeRef) (metadata : String) : Bool :=
  n.declaration.attributes.any fun a => simpleNameMatches a.name metadata

end NodeRef

namespace Model

/-- The attributes of a node that are of the class. -/
def boundAttributes (m : Model) (i : Fin m.tree.size) (metadata : String) :
    List BoundAttribute :=
  ((m.tree.declaration i).attributes.filter fun a => m.attributeBinds i a.name metadata).map
    fun a => { className := metadata, written := a }

/-- The symbol declared at a node. -/
def targetSymbol? (m : Model) (i : Fin m.tree.size) : Option TargetSymbol :=
  match (m.tree.declaration i).kind with
  | .methodDeclaration => (m.declaredMethod? i).map .method
  | .typeDeclaration _ => (m.declaredType? i).map .type
  | _ => none

end Model

namespace Compilation

/-- The node as an annotated declaration, if one of its attributes is of the class and it
declares a symbol. -/
def annotated? (c : Compilation) (metadata : String) (n : NodeRef) : Option Annotated :=
  let m := c.model n.tree
  match m.boundAttributes n.id metadata with
  | [] => none
  | attributes => (m.targetSymbol? n.id).map fun symbol => { node := n, symbol, attributes }

/-- Goes through nodes and keeps the annotated ones for which the predicate holds. The
predicate is an action, asked only about nodes that name the attribute. -/
def selectAnnotated {m : Type → Type} [Monad m] (c : Compilation) (metadata : String)
    (predicate : NodeRef → m Bool) : List NodeRef → m (List Annotated)
  | [] => pure []
  | n :: rest =>
    if n.namesAttribute metadata then do
      let wanted ← predicate n
      let found := if wanted then (c.annotated? metadata n).toList else []
      let more ← selectAnnotated c metadata predicate rest
      pure (found ++ more)
    else selectAnnotated c metadata predicate rest

/-- The annotated declarations for which the predicate holds, in file order and in
pre-order within a file. -/
def annotatedM {m : Type → Type} [Monad m] (c : Compilation) (metadata : String)
    (predicate : NodeRef → m Bool) : m (List Annotated) :=
  c.selectAnnotated metadata predicate c.nodes

/-- The annotated declarations for which a pure predicate holds. -/
def annotated (c : Compilation) (metadata : String) (predicate : NodeRef → Bool) :
    List Annotated :=
  Id.run (c.annotatedM metadata fun n => pure (predicate n))

end Compilation

end StubGen

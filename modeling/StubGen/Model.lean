import StubGen.Compilation
import StubGen.Symbol

/-!
# The meaning of names in a tree

Resolution goes by names alone: namespaces come from the enclosing declarations, using
directives import namespaces, and a few types of the runtime are known by their full
names. Nothing outside the compilation is looked at.
-/

namespace StubGen

/-- A tree together with the namespaces that the whole compilation imports for it. -/
structure Model where
  tree : Tree
  globalUsings : List Namespace := []

/-- The model of a tree in a compilation. -/
def Compilation.model (c : Compilation) (t : Tree) : Model := ⟨t, c.globalUsings⟩

/-- What an attribute's class name may end in without the application saying so. -/
def attributeEnding : String := "Attribute"

/-- Whether a written attribute name has the simple name of the attribute class, in full or
without its ending. -/
def simpleNameMatches (written metadata : String) : Bool :=
  let target := (Text.qualifierAndName metadata).2
  let simple := (Text.qualifierAndName (withoutRootMark written)).2
  simple == target || simple ++ attributeEnding == target

namespace Model

/-- The namespace in which a node stands. -/
def enclosingNamespace (m : Model) (i : Fin m.tree.size) : Namespace :=
  ⟨(((m.tree.ancestors i).map m.tree.declaration).filter
      (·.kind == .namespaceDeclaration)).reverse.flatMap fun d =>
    (Namespace.ofDotted d.name).segments⟩

/-- The namespaces imported by the using directives beside a node and beside the nodes
above it, nearest first. -/
def localUsings (m : Model) (i : Fin m.tree.size) : List Namespace :=
  ((((m.tree.ancestors i).flatMap m.tree.children).map m.tree.declaration).filter
    (·.kind == .usingDirective)).map fun d => Namespace.ofDotted d.name

/-- The imported namespaces visible from a node: its own file's first, then those of the
whole compilation that are not among them. -/
def usings (m : Model) (i : Fin m.tree.size) : List Namespace :=
  Compilation.addNew (m.localUsings i) m.globalUsings

/-- The namespaces in which a name used at a node is looked up, innermost first. -/
def lookupScopes (m : Model) (i : Fin m.tree.size) (withUsings : Bool) : List Namespace :=
  let enclosing := m.enclosingNamespace i
  enclosing :: enclosing.allContaining ++ (if withUsings then m.usings i else [])

/-- A type declaration without the types around it. -/
def typeHeader? (m : Model) (i : Fin m.tree.size) : Option TypeHeader :=
  (m.tree.declaration i).kind.typeForm?.map fun form =>
    { name := (m.tree.declaration i).name
      kind := TypeKind.ofForm form
      inNamespace := m.enclosingNamespace i
      typeParameters := (m.tree.declaration i).typeParameters }

/-- The type declared at a node and the types declared directly around it, innermost
first; nothing if the node declares no type. -/
def typeChain (m : Model) (i : Fin m.tree.size) : List TypeHeader :=
  match m.typeHeader? i with
  | none => []
  | some header =>
    header ::
      match _above : m.tree.parent i with
      | none => []
      | some p => m.typeChain p
termination_by i.val
decreasing_by exact Tree.parent_lt _above

/-- The type declared at a node. -/
def declaredType? (m : Model) (i : Fin m.tree.size) : Option NamedType :=
  match m.typeChain i with
  | [] => none
  | header :: outer => some { header with containing := outer }

/-- The special type that a name stands for at a node. -/
def resolveName? (m : Model) (i : Fin m.tree.size) (name : String) : Option SpecialType :=
  match Text.afterStart? rootMark name with
  | some rooted => SpecialType.ofMetadataName? rooted
  | none =>
    ((m.lookupScopes i true).map (·.qualify name) ++ [name]).findSome?
      SpecialType.ofMetadataName?

/-- The special type that a type reference without a trailing `?` stands for. -/
def resolveSpecial? (m : Model) (i : Fin m.tree.size) : TypeSyntax → Option SpecialType
  | .keyword type => some (SpecialType.ofKeyword type)
  | .named name => m.resolveName? i name

/-- The meaning of a type reference at a node. A trailing `?` leaves a reference type as it
is and turns any other type into one that is not special. -/
def resolve (m : Model) (i : Fin m.tree.size) (type : TypeSyntax) : TypeSymbol where
  display := type.display
  special :=
    match type.withoutNullable? with
    | some underlying => (m.resolveSpecial? i underlying).filter (·.isReference)
    | none => m.resolveSpecial? i type

/-- The method declared at a node whose parent declares a type. -/
def declaredMethod? (m : Model) (i : Fin m.tree.size) : Option MethodSymbol :=
  let d := m.tree.declaration i
  if d.kind = .methodDeclaration then
    match m.tree.parent i with
    | none => none
    | some p =>
      (m.declaredType? p).map fun containing =>
        { name := d.name
          typeParameters := d.typeParameters
          parameters := d.parameters.map fun parameter =>
            { name := parameter.name, type := parameter.type.map (m.resolve i) }
          returns := (d.returnType.map (m.resolve i)).getD { display := "", special := none }
          isStatic := d.modifiers.contains Modifiers.staticToken
          isPartial := d.modifiers.contains Modifiers.partialToken
          containingType := containing }
  else none

/-- Whether an attribute written at a node is the attribute class of the given full name.
Using directives import types and never the namespaces that a qualified name starts
from. -/
def attributeBinds (m : Model) (i : Fin m.tree.size) (written metadata : String) : Bool :=
  simpleNameMatches written metadata &&
    let target := (Text.qualifierAndName metadata).1
    match Text.afterStart? rootMark written with
    | some rooted => (Text.qualifierAndName rooted).1 == target
    | none =>
      let qualifier := (Text.qualifierAndName written).1
      (m.lookupScopes i (qualifier == "")).any fun scope => scope.qualify qualifier == target

end Model

end StubGen

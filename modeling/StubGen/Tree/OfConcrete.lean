import StubGen.Concrete
import StubGen.Tree

/-!
# Declarations of a concrete tree

The declarations of a file are read off its concrete tree. Members are looked for in the
bodies of namespaces and of types other than enums, and inside preprocessor blocks. A
file-scoped namespace takes in the members that follow it, up to the next file-scoped
namespace beside it; a preprocessor block has followers of its own.
-/

namespace StubGen

/-- What a node means among the members of a file, a namespace or a type. -/
inductive MemberRole where
  | fileScopedNamespace
  | namespaceBlock
  | usingDirective
  | typeDeclaration
  | methodDeclaration
  /-- A preprocessor block, which holds members. -/
  | preprocessor
  /-- A declaration of which only kind, name and modifiers matter. -/
  | otherDeclaration
  /-- Not a declaration. -/
  | ignored
deriving DecidableEq, Repr, Inhabited

/-- The kinds of nodes that declare a type. -/
def typeDeclarationKinds : List String :=
  ["class_declaration", "struct_declaration", "interface_declaration", "record_declaration",
    "record_struct_declaration", "enum_declaration"]

/-- The role of a node. Only named nodes have one. -/
def ConcreteNode.role (node : ConcreteNode) : MemberRole :=
  if !node.named then .ignored
  else if node.kind == "file_scoped_namespace_declaration" then .fileScopedNamespace
  else if node.kind == "namespace_declaration" then .namespaceBlock
  else if node.kind == "using_directive" then .usingDirective
  else if typeDeclarationKinds.contains node.kind then .typeDeclaration
  else if node.kind == "method_declaration" then .methodDeclaration
  else if Text.startsWith "preproc_" node.kind then .preprocessor
  else if Text.endsWith "_declaration" node.kind then .otherDeclaration
  else .ignored

/-- The span of a node. -/
def ConcreteNode.span (node : ConcreteNode) : Span := Span.ofOffsets node.start node.stop

namespace Concrete

/-- The modifiers of a declaration: the tokens, and the source text from the first to the
last. -/
def modifiers (source : String) (c : Concrete) : Modifiers :=
  let tokens := (c.children.filter (·.node.isNamed "modifier")).map (·.node)
  { tokens := tokens.map (·.compactText source)
    written := do
      let first ← tokens.head?
      let last ← tokens.getLast?
      let chars ← Text.slice? source first.start last.stop
      some (String.ofList chars) }

/-- The attributes of a declaration, list by list. -/
def attributes (source : String) (c : Concrete) : List Declaration.Attribute :=
  (c.children.filter (·.node.isNamed "attribute_list")).flatMap fun list =>
    (list.children.filter (·.node.isNamed "attribute")).map fun applied =>
      let name := (applied.field? "name").or applied.namedChildren.head?
      { name := (name.map (·.node.compactText source)).getD ""
        span := applied.node.span }

/-- The names of the type parameters of a declaration. -/
def typeParameters (source : String) (c : Concrete) : List String :=
  match (c.field? "type_parameters").or (c.namedChild? "type_parameter_list") with
  | none => []
  | some list =>
    (list.children.filter (·.node.isNamed "type_parameter")).map fun parameter =>
      match parameter.field? "name" with
      | some name => name.node.compactText source
      | none => parameter.node.compactText source

/-- The type written in a field. -/
def fieldType? (source : String) (c : Concrete) (field : String) : Option TypeSyntax :=
  (c.field? field).map fun written => TypeSyntax.parse (written.node.compactText source)

/-- One parameter of a method. -/
def parameter (source : String) (c : Concrete) : Declaration.Parameter where
  name := c.fieldText source "name"
  type := c.fieldType? source "type"
  modifiers :=
    let written := c.modifiers source
    if c.node.kind != "parameter" && c.hasKeyword "params" then
      written.push Modifiers.paramsToken
    else written

/-- The parameters of a method: the nodes of its list whose kind speaks of a parameter. -/
def parameters (source : String) (c : Concrete) : List Declaration.Parameter :=
  match (c.field? "parameters").or (c.namedChild? "parameter_list") with
  | none => []
  | some list =>
    (list.namedChildren.filter fun entry =>
      Text.occursIn "parameter".toList entry.node.kind.toList).map (·.parameter source)

/-- The declaration of a namespace. -/
def namespaceDeclaration (source : String) (c : Concrete) : Declaration where
  kind := .namespaceDeclaration
  name := c.fieldText source "name"
  span := c.node.span

/-- The kinds of nodes that name the target of a using directive. -/
def usingTargetKinds : List String := ["identifier", "qualified_name", "alias_qualified_name"]

/-- The declaration of a using directive that imports a namespace. Aliases and static
usings import none. -/
def usingDeclaration? (source : String) (c : Concrete) : Option Declaration :=
  if (c.field? "name").isSome || c.hasKeyword "static" then none
  else
    (c.namedChildren.find? fun child => usingTargetKinds.contains child.node.kind).map
      fun child =>
        let written := child.node.compactText source
        Declaration.ofUsing ((Text.afterStart? "global::" written).getD written)
          (c.hasKeyword "global") c.node.span

/-- The form of a declared type. -/
def typeForm (c : Concrete) : TypeForm :=
  if c.node.kind == "class_declaration" then .classType
  else if c.node.kind == "struct_declaration" then .structType
  else if c.node.kind == "interface_declaration" then .interfaceType
  else if c.node.kind == "enum_declaration" then .enumType
  else if c.node.kind == "record_struct_declaration" then .recordStructType
  else if c.hasKeyword "struct" then .recordStructType
  else .recordType

/-- The declaration of a type. -/
def typeDeclaration (source : String) (c : Concrete) : Declaration where
  kind := .typeDeclaration c.typeForm
  name := c.fieldText source "name"
  span := c.node.span
  modifiers := c.modifiers source
  attributes := c.attributes source
  typeParameters := c.typeParameters source

/-- The declaration of a method. -/
def methodDeclaration (source : String) (c : Concrete) : Declaration where
  kind := .methodDeclaration
  name := c.fieldText source "name"
  span := c.node.span
  modifiers := c.modifiers source
  attributes := c.attributes source
  returnType := (c.fieldType? source "returns").or (c.fieldType? source "type")
  typeParameters := c.typeParameters source
  parameters := c.parameters source

/-- Any other declaration. -/
def otherDeclaration (source : String) (c : Concrete) : Declaration where
  kind := .other c.node.kind
  name := c.fieldText source "name"
  span := c.node.span
  modifiers := c.modifiers source

/-- The members found in a sequence of nodes. Those of the sequence itself come before the
first file-scoped namespace; the namespaces come with what they took in. -/
structure Members where
  own : Forest Declaration := .nil
  adopting : Forest Declaration := .nil
deriving Repr, Inhabited

/-- All members, in source order. -/
def Members.all (m : Members) : Forest Declaration := m.own ++ m.adopting

/-- Members declared before the others. -/
def Members.after (m : Members) (earlier : Forest Declaration) : Members :=
  { m with own := earlier ++ m.own }

mutual

/-- The members found in a sequence of nodes. -/
def members (source : String) : Forest ConcreteNode → Members
  | .nil => {}
  | .cons node below rest =>
    let c : Concrete := ⟨node, below⟩
    let following := members source rest
    match node.role with
    | .fileScopedNamespace =>
      let inner := (bodyMembers source (·.fills "body") below).getD (members source below)
      { adopting := .cons (c.namespaceDeclaration source) (inner.all ++ following.own)
          following.adopting }
    | .namespaceBlock =>
      let inner := (bodyMembers source (·.fills "body") below).getD (members source below)
      following.after (.cons (c.namespaceDeclaration source) inner.all .nil)
    | .usingDirective =>
      match c.usingDeclaration? source with
      | some d => following.after (.cons d .nil .nil)
      | none => following
    | .typeDeclaration =>
      let inner :=
        if c.typeForm = .enumType then {}
        else
          ((bodyMembers source (·.fills "body") below).or
            (bodyMembers source (·.isNamed "declaration_list") below)).getD {}
      following.after (.cons (c.typeDeclaration source) inner.all .nil)
    | .methodDeclaration => following.after (.cons (c.methodDeclaration source) .nil .nil)
    | .preprocessor => following.after (members source below).all
    | .otherDeclaration => following.after (.cons (c.otherDeclaration source) .nil .nil)
    | .ignored => following

/-- The members in the first node that is taken for the body, if there is one. -/
def bodyMembers (source : String) (isBody : ConcreteNode → Bool) :
    Forest ConcreteNode → Option Members
  | .nil => none
  | .cons node below rest =>
    if isBody node then some (members source below) else bodyMembers source isBody rest

end

end Concrete

/-- The declaration tree of a file, given its concrete tree and its source text. -/
def Tree.ofConcrete (file : FileId) (source : String) (c : Concrete) : Tree :=
  Tree.ofForest file c.node.span (Concrete.members source c.below).all

end StubGen

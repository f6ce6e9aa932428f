import StubGen.Compilation

/-!
# Candidates by structure

Questions about single declarations and their neighbours that need no names resolved:
whether a type is open for generated members, whether a method is the greeting stub, and
whether an annotated method is worth a closer look.
-/

namespace StubGen

/-- The name of the greeting stub. -/
def targetMethod : String := "SayHelloTo"

namespace Declaration

/-- Whether the declaration is partial. -/
def isPartial (d : Declaration) : Bool :=
  !d.modifiers.isEmpty && d.modifiers.contains Modifiers.partialToken

/-- Whether the declaration is a partial type. Enums do not count: they cannot be
partial. -/
def isPartialType (d : Declaration) : Bool :=
  (match d.kind.typeForm? with
    | some form => form != .enumType
    | none => false) && d.isPartial

/-- Whether the declaration is the greeting stub: a partial method of the target's name with
the keyword `void` as return type. -/
def isTargetStub (d : Declaration) : Bool :=
  d.kind == .methodDeclaration && d.name == targetMethod &&
    d.returnType.any (·.isVoid) && d.isPartial

end Declaration

namespace NodeRef

/-- The first greeting stub among the children. -/
def targetStub? (n : NodeRef) : Option NodeRef :=
  n.children.find? (·.declaration.isTargetStub)

/-- Whether the node is a partial type with a greeting stub. -/
def hasTargetStub (n : NodeRef) : Bool :=
  n.declaration.isPartialType && n.targetStub?.isSome

/-- Whether the node is a partial method directly inside a partial type of any form. -/
def isAnnotatedCandidate (n : NodeRef) : Bool :=
  n.declaration.kind == .methodDeclaration && n.declaration.isPartial &&
    n.parent.any fun p => p.declaration.kind.isType && p.declaration.isPartial

/-- The nearest type around the node. -/
def enclosingType? (n : NodeRef) : Option NodeRef :=
  n.ancestors.find? (·.declaration.kind.isType)

end NodeRef

end StubGen

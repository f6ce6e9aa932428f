import StubGen.Annotated
import StubGen.Candidate

/-!
# Records of completable methods

A record holds everything that is needed to complete one annotated method. An annotated
declaration gives a record only if it has the right shape: a static method without type
parameters, with a single string parameter and nothing returned, in a class, struct or
interface. Any other shape gives none; that is not an error.
-/

namespace StubGen

/-- A method to complete. -/
structure Record where
  memberName : String
  parameterName : String
  typeName : String
  inNamespace : Namespace
  typeKind : TypeKind
  /-- The declaration of the method. -/
  node : NodeRef

namespace Record

/-- The modifiers of the method. -/
def modifiers (r : Record) : Modifiers := r.node.declaration.modifiers

end Record

namespace MethodSymbol

/-- The only parameter, if there is just one and it is a string. -/
def soleStringParameter? (m : MethodSymbol) : Option ParameterSymbol :=
  match m.parameters with
  | [parameter] =>
    if (parameter.type.bind (·.special)) = some .string then some parameter else none
  | _ => none

/-- Whether the containing type is of a kind that can be reopened. -/
def inReopenableType (m : MethodSymbol) : Bool :=
  match m.containingType.kind with
  | .classKind | .structKind | .interfaceKind => true
  | .enumKind | .delegateKind => false

/-- The record of a method declared at a node. -/
def record? (m : MethodSymbol) (n : NodeRef) : Option Record :=
  if n.declaration.kind = .methodDeclaration ∧ m.typeParameters = [] ∧ m.returnsVoid ∧
      m.isStatic ∧ m.inReopenableType then
    m.soleStringParameter?.map fun parameter =>
      { memberName := m.name
        parameterName := parameter.name
        typeName := m.containingType.name
        inNamespace := m.containingType.inNamespace
        typeKind := m.containingType.kind
        node := n }
  else none

end MethodSymbol

/-- The record of an annotated declaration. -/
def Annotated.record? (a : Annotated) : Option Record :=
  a.symbol.method?.bind fun m => m.record? a.node

/-- The records of one pass, in the order in which they were found. -/
abbrev Batch := List Record

namespace Batch

/-- The records among the results of a projection. -/
def collect (results : List (Option Record)) : Batch := results.filterMap id

end Batch

/-- The attribute class that asks for a method to be completed. -/
def greetingAttribute : String := "SourceGeneratorSample.Greetings.SayHello2Attribute"

/-- The records of all annotated methods of a compilation. -/
def Compilation.records (c : Compilation) : Batch :=
  Batch.collect ((c.annotated greetingAttribute (·.isAnnotatedCandidate)).map (·.record?))

end StubGen

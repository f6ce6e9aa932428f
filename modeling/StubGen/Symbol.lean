import StubGen.Declaration
import StubGen.Namespace

/-!
# Symbols

What declarations and type references stand for once names have been looked up: special
types of the runtime, named types and methods.
-/

namespace StubGen

/-- The kind of a named type. -/
inductive TypeKind where
  | classKind
  | structKind
  | interfaceKind
  | enumKind
  | delegateKind
deriving DecidableEq, Repr, Inhabited

namespace TypeKind

/-- Every kind. -/
def all : List TypeKind := [classKind, structKind, interfaceKind, enumKind, delegateKind]

/-- The keyword of the kind. -/
def display : TypeKind → String
  | classKind => "class"
  | structKind => "struct"
  | interfaceKind => "interface"
  | enumKind => "enum"
  | delegateKind => "delegate"

/-- The kind of a type declared in the given form. Records are classes or structs. -/
def ofForm : TypeForm → TypeKind
  | .classType => classKind
  | .recordType => classKind
  | .structType => structKind
  | .recordStructType => structKind
  | .interfaceType => interfaceKind
  | .enumType => enumKind

end TypeKind

/-- A type of the runtime that names can be resolved to. -/
inductive SpecialType where
  | void
  | string
  | boolean
  | int32
  | int64
  | double
  | char
  | object
deriving DecidableEq, Repr, Inhabited

namespace SpecialType

/-- Every special type. -/
def all : List SpecialType := [void, string, boolean, int32, int64, double, char, object]

/-- The simple name in the runtime. -/
def simpleName : SpecialType → String
  | void => "Void"
  | string => "String"
  | boolean => "Boolean"
  | int32 => "Int32"
  | int64 => "Int64"
  | double => "Double"
  | char => "Char"
  | object => "Object"

/-- The full name in the runtime. -/
def metadataName (s : SpecialType) : String := "System." ++ s.simpleName

/-- The special type with the given full name. -/
def ofMetadataName? (name : String) : Option SpecialType :=
  all.find? fun s => s.metadataName == name

/-- The special types that a trailing `?` leaves as they are. -/
def isReference (s : SpecialType) : Bool := s == string || s == object

/-- The special type of a keyword. -/
def ofKeyword : KeywordType → SpecialType
  | .void => void
  | .string => string
  | .bool => boolean
  | .int => int32
  | .long => int64
  | .double => double
  | .char => char
  | .object => object

end SpecialType

/-- A resolved type reference. -/
structure TypeSymbol where
  /-- The type as written. -/
  display : String
  special : Option SpecialType
deriving DecidableEq, Repr, Inhabited

/-- A declared type, without the types around it. -/
structure TypeHeader where
  name : String
  kind : TypeKind
  /-- The namespace that holds the type and the types around it. -/
  inNamespace : Namespace
  typeParameters : List String
deriving DecidableEq, Repr, Inhabited

/-- A declared type. -/
structure NamedType extends TypeHeader where
  /-- The types around it, innermost first. -/
  containing : List TypeHeader := []
deriving DecidableEq, Repr, Inhabited

/-- A resolved parameter. -/
structure ParameterSymbol where
  name : String
  type : Option TypeSymbol
deriving DecidableEq, Repr, Inhabited

/-- A resolved method. -/
structure MethodSymbol where
  name : String
  typeParameters : List String
  parameters : List ParameterSymbol
  returns : TypeSymbol
  isStatic : Bool
  isPartial : Bool
  containingType : NamedType
deriving DecidableEq, Repr, Inhabited

/-- Whether a method returns nothing. -/
def MethodSymbol.returnsVoid (m : MethodSymbol) : Bool := m.returns.special == some .void

end StubGen

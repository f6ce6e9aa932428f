import StubGen.Span
import StubGen.Modifiers
import StubGen.TypeSyntax

/-!
# Declarations

What is kept of one declaration of a C# file: its kind, name, place, modifiers and
attributes, and for a method its return type, type parameters and parameters. Statements
and expressions are not kept.
-/

namespace StubGen

/-- The form in which a type is declared. -/
inductive TypeForm where
  | classType
  | structType
  | interfaceType
  | recordType
  | recordStructType
  | enumType
deriving DecidableEq, Repr, Inhabited

namespace TypeForm

/-- Every form. -/
def all : List TypeForm :=
  [classType, structType, interfaceType, recordType, recordStructType, enumType]

/-- The keywords that introduce a declaration of this form. -/
def keyword : TypeForm → String
  | classType => "class"
  | structType => "struct"
  | interfaceType => "interface"
  | recordType => "record"
  | recordStructType => "record struct"
  | enumType => "enum"

/-- The form introduced by the given keywords. -/
def ofKeyword? (text : String) : Option TypeForm :=
  all.find? fun form => form.keyword == text

end TypeForm

namespace Declaration

/-- The kind of a declaration. -/
inductive Kind where
  /-- A whole file. -/
  | compilationUnit
  | usingDirective
  | namespaceDeclaration
  | typeDeclaration (form : TypeForm)
  | methodDeclaration
  /-- Any other member, under the grammar's name for it. -/
  | other (grammarKind : String)
deriving DecidableEq, Repr, Inhabited

namespace Kind

/-- The kind in listings. -/
def display : Kind → String
  | compilationUnit => "compilation_unit"
  | usingDirective => "using_directive"
  | namespaceDeclaration => "namespace_declaration"
  | typeDeclaration form => form.keyword ++ "_declaration"
  | methodDeclaration => "method_declaration"
  | other grammarKind => "other(" ++ grammarKind ++ ")"

/-- The form of the declared type, if a type is declared. -/
def typeForm? : Kind → Option TypeForm
  | typeDeclaration form => some form
  | _ => none

/-- Whether a type is declared. -/
def isType (k : Kind) : Bool := k.typeForm?.isSome

end Kind

/-- The application of an attribute. -/
structure Attribute where
  /-- The name as written, qualified or not, with or without `global::`. -/
  name : String
  span : Span := {}
deriving DecidableEq, Repr, Inhabited

/-- A formal parameter. -/
structure Parameter where
  name : String
  /-- The declared type; absent when none is written. -/
  type : Option TypeSyntax := none
  modifiers : Modifiers := {}
deriving DecidableEq, Repr, Inhabited

end Declaration

/-- One declaration. -/
structure Declaration where
  kind : Declaration.Kind
  span : Span := {}
  /-- The name of a type or method, the dotted name of a namespace or of a using target. -/
  name : String := ""
  modifiers : Modifiers := {}
  attributes : List Declaration.Attribute := []
  returnType : Option TypeSyntax := none
  typeParameters : List String := []
  parameters : List Declaration.Parameter := []
deriving DecidableEq, Repr, Inhabited

namespace Declaration

/-- A using directive; a global one carries the modifier `global`. -/
def ofUsing (target : String) (isGlobal : Bool) (span : Span) : Declaration where
  kind := .usingDirective
  name := target
  span := span
  modifiers := if isGlobal then Modifiers.ofTokens [Modifiers.globalToken] else {}

/-- The types written in a declaration: what it returns and what it takes. -/
def types (d : Declaration) : List TypeSyntax :=
  d.returnType.toList ++ d.parameters.filterMap (·.type)

end Declaration

end StubGen

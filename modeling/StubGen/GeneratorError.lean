import StubGen.Symbol

/-!
# Failures of a generator

A declaration of the wrong shape is dropped and is no failure. Only these two are.
-/

namespace StubGen

/-- Why a pass of a generator cannot be completed. -/
inductive GeneratorError where
  /-- A type of this kind cannot be reopened. -/
  | unsupportedTypeKind (typeName : String) (kind : TypeKind)
  /-- The generator added two fragments under one name. -/
  | duplicateHintName (generator hintName : String)
deriving DecidableEq, Repr, Inhabited

/-- The message. -/
def GeneratorError.message : GeneratorError → String
  | unsupportedTypeKind typeName kind =>
    "cannot emit a partial `" ++ kind.display ++ "` for `" ++ typeName ++ "`"
  | duplicateHintName generator hintName =>
    "generator `" ++ generator ++ "` added `" ++ hintName ++ "` more than once"

end StubGen

import StubGen.Model

/-!
# Declared symbols

What the model says of the symbols that a declaration introduces: a type declaration
always declares a type, with its own header in front of the types around it, and a method
declares a symbol exactly if its parent declares a type.
-/

namespace StubGen.Model

variable {m : Model} {i p : Fin m.tree.size}

/-- The type declared at a node begins with the header of the node. -/
theorem declaredType?_header (m : Model) (i : Fin m.tree.size) :
    (m.declaredType? i).map (·.toTypeHeader) = m.typeHeader? i := by
  unfold declaredType? typeChain
  cases m.typeHeader? i with
  | none => rfl
  | some header => rfl

/-- The type that a type declaration declares. -/
theorem declaredType?_eq_some {form : TypeForm}
    (h : (m.tree.declaration i).kind.typeForm? = some form) :
    ∃ type, m.declaredType? i = some type ∧ type.toTypeHeader =
      { name := (m.tree.declaration i).name
        kind := TypeKind.ofForm form
        inNamespace := m.enclosingNamespace i
        typeParameters := (m.tree.declaration i).typeParameters } := by
  have hheader := m.declaredType?_header i
  simpa [typeHeader?, h] using hheader

/-- The symbol of a method declaration, given the type that holds it. -/
def methodOf (m : Model) (i : Fin m.tree.size) (containing : NamedType) : MethodSymbol where
  name := (m.tree.declaration i).name
  typeParameters := (m.tree.declaration i).typeParameters
  parameters := (m.tree.declaration i).parameters.map fun parameter =>
    { name := parameter.name, type := parameter.type.map (m.resolve i) }
  returns := ((m.tree.declaration i).returnType.map (m.resolve i)).getD
    { display := "", special := none }
  isStatic := (m.tree.declaration i).modifiers.contains Modifiers.staticToken
  isPartial := (m.tree.declaration i).modifiers.contains Modifiers.partialToken
  containingType := containing

/-- A method below a type declares a symbol that belongs to the declared type. -/
theorem declaredMethod?_of_parent
    (hkind : (m.tree.declaration i).kind = .methodDeclaration)
    (hparent : m.tree.parent i = some p) :
    m.declaredMethod? i = (m.declaredType? p).map (m.methodOf i) := by
  simp only [declaredMethod?, hkind, hparent, if_true]
  rfl

/-- Exactly the type declarations declare a type. -/
theorem declaredType?_isSome_iff :
    (m.declaredType? i).isSome = true ↔ (m.tree.declaration i).kind.isType = true := by
  have hheader := congrArg Option.isSome (m.declaredType?_header i)
  rw [Option.isSome_map, typeHeader?, Option.isSome_map] at hheader
  rw [hheader]
  rfl

/-- Exactly the methods below a type declaration declare a method. -/
theorem declaredMethod?_isSome_iff :
    (m.declaredMethod? i).isSome = true ↔
      (m.tree.declaration i).kind = .methodDeclaration ∧
        ∃ p, m.tree.parent i = some p ∧ (m.tree.declaration p).kind.isType = true := by
  by_cases hkind : (m.tree.declaration i).kind = .methodDeclaration
  · cases hparent : m.tree.parent i with
    | none => simp [declaredMethod?, hkind, hparent]
    | some p =>
      rw [declaredMethod?_of_parent hkind hparent, Option.isSome_map, declaredType?_isSome_iff]
      simp [hkind]
  · simp [declaredMethod?, hkind]

end StubGen.Model

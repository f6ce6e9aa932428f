import StubGen.Candidate
import StubGen.Proofs.Tree.Preorder

/-!
# What the structural tests ask

Each test on declarations and their neighbours, as a statement about the tree: what makes a
method the greeting stub, a type the one whose stub is completed, and a method worth a closer
look.

The names and modifiers are taken as they stand in the tree; nothing is resolved.
-/

namespace StubGen

namespace Declaration

/-- Being partial is carrying the modifier. -/
theorem isPartial_iff {d : Declaration} :
    d.isPartial = true ↔ Modifiers.partialToken ∈ d.modifiers.tokens := by
  simp only [isPartial, Modifiers.isEmpty, Modifiers.contains, Bool.and_eq_true,
    Bool.not_eq_true', List.isEmpty_eq_false_iff, List.contains_iff_mem]
  exact ⟨fun h => h.2, fun h => ⟨List.ne_nil_of_mem h, h⟩⟩

/-- The test for a partial type. -/
theorem isPartialType_iff {d : Declaration} :
    d.isPartialType = true ↔
      (∃ form ∈ d.kind.typeForm?, form ≠ .enumType) ∧
        Modifiers.partialToken ∈ d.modifiers.tokens := by
  rw [isPartialType, Bool.and_eq_true, isPartial_iff]
  cases d.kind.typeForm? <;> simp

/-- What makes a declaration the greeting stub. -/
structure IsGreetingStub (d : Declaration) : Prop where
  isMethod : d.kind = .methodDeclaration
  name_eq : d.name = "SayHelloTo"
  returnsVoid : d.returnType = some (.keyword .void)
  isPartial : Modifiers.partialToken ∈ d.modifiers.tokens

/-- The test for the greeting stub. -/
theorem isTargetStub_iff {d : Declaration} : d.isTargetStub = true ↔ d.IsGreetingStub := by
  have hvoid : d.returnType.any (·.isVoid) = true ↔ d.returnType = some (.keyword .void) := by
    cases d.returnType <;> simp [TypeSyntax.isVoid]
  simp only [isTargetStub, Bool.and_eq_true, beq_iff_eq, hvoid, isPartial_iff]
  exact ⟨fun ⟨⟨⟨h₁, h₂⟩, h₃⟩, h₄⟩ => ⟨h₁, h₂, h₃, h₄⟩, fun ⟨h₁, h₂, h₃, h₄⟩ => ⟨⟨⟨h₁, h₂⟩, h₃⟩, h₄⟩⟩

end Declaration

namespace NodeRef

variable {n p : NodeRef}

/-- The parent of a node is the node that the tree has as its parent. -/
theorem mem_parent_iff {n p : NodeRef} :
    p ∈ n.parent ↔ ∃ q, n.tree.parent n.id = some q ∧ ⟨n.tree, q⟩ = p :=
  Option.map_eq_some_iff

/-- The structural test for annotated methods. -/
theorem isAnnotatedCandidate_iff :
    n.isAnnotatedCandidate = true ↔
      n.declaration.kind = .methodDeclaration ∧
        Modifiers.partialToken ∈ n.declaration.modifiers.tokens ∧
        ∃ p ∈ n.parent, (∃ form, form ∈ p.declaration.kind.typeForm?) ∧
          Modifiers.partialToken ∈ p.declaration.modifiers.tokens := by
  simp only [isAnnotatedCandidate, Bool.and_eq_true, beq_iff_eq, Option.any_eq_true, and_assoc,
    Declaration.isPartial_iff, Declaration.Kind.isType, Option.isSome_iff_exists,
    Option.mem_def]

/-- A partial type, no enum, with the greeting stub among its own members. -/
structure OpensGreeting (n : NodeRef) : Prop where
  isType : ∃ form ∈ n.declaration.kind.typeForm?, form ≠ .enumType
  isPartial : Modifiers.partialToken ∈ n.declaration.modifiers.tokens
  hasStub : ∃ i, n.tree.parent i = some n.id ∧ (n.tree.declaration i).IsGreetingStub

/-- A partial type is a type. -/
theorem OpensGreeting.isType_eq_true (h : n.OpensGreeting) :
    n.declaration.kind.isType = true := by
  obtain ⟨form, hform, -⟩ := h.isType
  exact Option.isSome_of_mem hform

/-- The stub of a node is one of its members. -/
theorem parent_of_targetStub? {stub : NodeRef} (h : n.targetStub? = some stub) :
    stub.parent = some n ∧ stub.declaration.IsGreetingStub := by
  have hstub := List.find?_some h
  obtain ⟨i, hi, rfl⟩ := List.mem_map.mp (List.mem_of_find?_eq_some h)
  exact ⟨mem_parent_iff.mpr ⟨n.id, Tree.mem_children.mp hi, rfl⟩,
    Declaration.isTargetStub_iff.mp hstub⟩

/-- A node has a stub exactly if one of its members is one. -/
theorem targetStub?_isSome_iff :
    n.targetStub?.isSome = true ↔
      ∃ i, n.tree.parent i = some n.id ∧ (n.tree.declaration i).IsGreetingStub := by
  rw [targetStub?, children, List.find?_map, Option.isSome_map, List.find?_isSome]
  simp only [Tree.mem_children, Function.comp_apply]
  exact exists_congr fun i => and_congr_right fun _ => Declaration.isTargetStub_iff

/-- The test for a partial type with a stub. -/
theorem hasTargetStub_iff : n.hasTargetStub = true ↔ n.OpensGreeting := by
  rw [hasTargetStub, Bool.and_eq_true, Declaration.isPartialType_iff, targetStub?_isSome_iff]
  exact ⟨fun ⟨⟨h₁, h₂⟩, h₃⟩ => ⟨h₁, h₂, h₃⟩, fun ⟨h₁, h₂, h₃⟩ => ⟨⟨h₁, h₂⟩, h₃⟩⟩

/-- Whether a node is a partial type with a stub can be computed. -/
instance : DecidablePred OpensGreeting := fun _ => decidable_of_iff _ hasTargetStub_iff

/-- The nearest type around a member of a type is that type. -/
theorem enclosingType?_of_parent (hp : n.parent = some p)
    (htype : p.declaration.kind.isType = true) : n.enclosingType? = some p := by
  obtain ⟨q, hq, rfl⟩ := mem_parent_iff.mp hp
  rw [enclosingType?, ancestors, Tree.ancestors_of_parent hq, List.map_cons]
  exact List.find?_cons_of_pos htype

end NodeRef

end StubGen

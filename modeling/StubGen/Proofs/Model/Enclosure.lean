import Mathlib.Data.List.TakeWhile
import StubGen.Proofs.Model.Declared
import StubGen.Proofs.Model.Scopes

/-!
# What encloses a declaration

The namespace of a node and the types around a declared type are put together step by step along
the parents: a parent that declares a namespace adds its segments, a parent that declares a
type adds itself to the types around, and any other parent ends them. So the types around a
type are the longest run of type declarations directly above it, and as none of them declares a
namespace, they all stand in the same one.
-/

namespace StubGen

namespace Tree

variable {t : Tree} {i j : Fin t.size} {run : List (Fin t.size)}

/-- Whether a node declares a type. -/
def declaresType (t : Tree) (i : Fin t.size) : Bool := (t.declaration i).kind.isType

/-- The longest run of type declarations directly above a node, nearest first. -/
structure TypesAbove (t : Tree) (i : Fin t.size) (run : List (Fin t.size)) : Prop where
  directly : run <+: t.ancestors i
  types : ∀ j ∈ run, t.declaresType j = true
  longest : ∀ j, run ++ [j] <+: t.ancestors i → t.declaresType j = false

/-- There is one such run: the nodes above, as long as they declare types. -/
theorem typesAbove_iff : t.TypesAbove i run ↔ run = (t.ancestors i).takeWhile t.declaresType := by
  constructor
  · intro h
    obtain ⟨rest, hrest⟩ := h.directly
    rw [← hrest, List.takeWhile_append_of_pos h.types]
    cases rest with
    | nil => rw [List.takeWhile_nil, List.append_nil]
    | cons j rest =>
      have hj : t.declaresType j = false :=
        h.longest j ⟨rest, by rw [← hrest, List.append_assoc, List.singleton_append]⟩
      rw [List.takeWhile_cons_of_neg (by simp [hj]), List.append_nil]
  · rintro rfl
    refine ⟨List.takeWhile_prefix _, fun j hj => List.mem_takeWhile_imp hj, fun j hj => ?_⟩
    obtain ⟨rest, hrest⟩ := hj
    have hsplit := (List.takeWhile_append_dropWhile (p := t.declaresType)).trans hrest.symm
    rw [List.append_assoc] at hsplit
    have hfirst := List.head?_dropWhile_not t.declaresType (t.ancestors i)
    rw [List.append_cancel_left hsplit] at hfirst
    exact hfirst

end Tree

namespace Model

variable {m : Model} {i j p : Fin m.tree.size} {header : TypeHeader}

/-- The header of the type that is declared at a node. -/
structure IsHeader (m : Model) (j : Fin m.tree.size) (header : TypeHeader) : Prop where
  name : header.name = (m.tree.declaration j).name
  kind : ∃ form, (m.tree.declaration j).kind = .typeDeclaration form ∧
    header.kind = TypeKind.ofForm form
  inNamespace : header.inNamespace = m.enclosingNamespace j
  typeParameters : header.typeParameters = (m.tree.declaration j).typeParameters

/-- A node has the header of a type exactly if it declares one. -/
theorem typeHeader?_isSome_iff (i : Fin m.tree.size) :
    (m.typeHeader? i).isSome = true ↔ m.tree.declaresType i = true := by
  rw [typeHeader?, Option.isSome_map]
  rfl

/-- The header of a node is that of its type. -/
theorem isHeader_of_typeHeader? (h : m.typeHeader? i = some header) : m.IsHeader i header := by
  obtain ⟨form, hform, rfl⟩ := Option.map_eq_some_iff.mp h
  have hkind : (m.tree.declaration i).kind = .typeDeclaration form := by
    cases hkind : (m.tree.declaration i).kind <;> simp_all [Declaration.Kind.typeForm?]
  exact ⟨rfl, ⟨form, hkind, rfl⟩, rfl, rfl⟩

/-- The types around a node, as far as they are found from its parent upwards. -/
def outerTypes (m : Model) (i : Fin m.tree.size) : List TypeHeader :=
  (m.tree.parent i).elim [] m.typeChain

/-- A type comes before the types around it. -/
theorem typeChain_eq (i : Fin m.tree.size) :
    m.typeChain i = (m.typeHeader? i).elim [] (· :: m.outerTypes i) := by
  rw [typeChain, outerTypes]
  cases m.typeHeader? i with
  | none => rfl
  | some header =>
    refine congrArg (header :: ·) ?_
    split
    · rename_i hp
      rw [hp]
      rfl
    · rename_i p hp
      rw [hp]
      rfl

/-- A declared type has the header of its node and the types around that. -/
theorem declaredType?_eq (i : Fin m.tree.size) :
    m.declaredType? i =
      (m.typeHeader? i).map fun header => { header with containing := m.outerTypes i } := by
  rw [declaredType?, typeChain_eq]
  cases m.typeHeader? i <;> rfl

/-- The types around a node are those of the run of type declarations above it. -/
theorem forall₂_outerTypes (i : Fin m.tree.size) :
    List.Forall₂ m.IsHeader ((m.tree.ancestors i).takeWhile m.tree.declaresType)
      (m.outerTypes i) := by
  induction i using Tree.parent_induction with
  | root i hp =>
    rw [Tree.ancestors_of_parent_none hp, outerTypes, hp]
    exact .nil
  | child i p hp ih =>
    rw [Tree.ancestors_of_parent hp, outerTypes, hp, Option.elim_some, typeChain_eq]
    cases hheader : m.typeHeader? p with
    | none =>
      have hnone := mt (typeHeader?_isSome_iff p).mpr (by simp [hheader])
      rw [List.takeWhile_cons_of_neg hnone]
      exact .nil
    | some header =>
      have htype := (typeHeader?_isSome_iff p).mp (by rw [hheader]; rfl)
      rw [List.takeWhile_cons_of_pos htype]
      exact .cons (isHeader_of_typeHeader? hheader) ih

/-- A type declaration does not change the namespace. -/
theorem enclosingNamespace_of_declaresType (hp : m.tree.parent i = some p)
    (htype : m.tree.declaresType p = true) : m.enclosingNamespace i = m.enclosingNamespace p := by
  have hown : ownSegments (m.tree.declaration p) = [] := by
    refine if_neg fun hkind => ?_
    rw [Tree.declaresType, hkind] at htype
    exact absurd htype (by decide)
  rw [enclosingNamespace_of_parent hp, hown, List.append_nil]

/-- The types around a node stand in the same namespace as the node. -/
theorem inNamespace_of_mem_outerTypes (h : header ∈ m.outerTypes i) :
    header.inNamespace = m.enclosingNamespace i := by
  induction i using Tree.parent_induction with
  | root i hp =>
    rw [outerTypes, hp] at h
    exact absurd h List.not_mem_nil
  | child i p hp ih =>
    rw [outerTypes, hp, Option.elim_some, typeChain_eq] at h
    cases hheader : m.typeHeader? p with
    | none =>
      rw [hheader] at h
      exact absurd h List.not_mem_nil
    | some nearest =>
      have htype := (typeHeader?_isSome_iff p).mp (by rw [hheader]; rfl)
      rw [hheader] at h
      rw [enclosingNamespace_of_declaresType hp htype]
      rcases List.mem_cons.mp h with rfl | hfurther
      · exact (isHeader_of_typeHeader? hheader).inNamespace
      · exact ih hfurther

/-- What encloses a node is put together along its parents. A node stands in the namespace of its
parent, which is extended by the parent's segments if that declares a namespace, and the compilation
unit stands in the global one. A type declaration, and nothing else, declares a type. The types
around it are those of the longest run of type declarations directly above it, innermost first,
and all of them stand in its namespace. A method is declared exactly by a method declaration
whose parent declares a type. -/
theorem enclosure_along_parents (m : Model) (i : Fin m.tree.size) :
    m.enclosingNamespace m.tree.root = Namespace.globalNamespace ∧
    (∀ p, m.tree.parent i = some p →
      (m.enclosingNamespace i).segments = (m.enclosingNamespace p).segments ++
        if (m.tree.declaration p).kind = .namespaceDeclaration then
          (Text.splitAt '.' (m.tree.declaration p).name).filter (· != "")
        else []) ∧
    ((m.declaredType? i).isSome = true ↔ m.tree.declaresType i = true) ∧
    (∀ type, m.declaredType? i = some type →
      m.IsHeader i type.toTypeHeader ∧
      (∃ run, (∀ other, m.tree.TypesAbove i other ↔ other = run) ∧
        List.Forall₂ m.IsHeader run type.containing) ∧
      ∀ outer ∈ type.containing, outer.inNamespace = m.enclosingNamespace i) ∧
    ((m.declaredMethod? i).isSome = true ↔
      (m.tree.declaration i).kind = .methodDeclaration ∧
        ∃ p, m.tree.parent i = some p ∧ m.tree.declaresType p = true) := by
  have hroot : m.tree.parent m.tree.root = none := Tree.parent_eq_none_iff.mpr rfl
  refine ⟨enclosingNamespace_of_parent_none hroot, fun p hp => ?_, declaredType?_isSome_iff,
    fun type htype => ?_, declaredMethod?_isSome_iff⟩
  · rw [enclosingNamespace_of_parent hp]
    rfl
  · rw [declaredType?_eq, Option.map_eq_some_iff] at htype
    obtain ⟨header, hheader, rfl⟩ := htype
    exact ⟨isHeader_of_typeHeader? hheader,
      ⟨_, fun other => Tree.typesAbove_iff, m.forall₂_outerTypes i⟩,
      fun outer houter => inNamespace_of_mem_outerTypes houter⟩

end Model

end StubGen

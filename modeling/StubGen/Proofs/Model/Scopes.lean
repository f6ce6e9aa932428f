import StubGen.Model
import StubGen.Proofs.Namespace.Segments
import StubGen.Proofs.Tree.Preorder

/-!
# The namespaces in which a name is looked up

A name is looked up in the namespaces around its place and, where usings count, in the
imported ones. What is imported is stated over the tree and the compilation: the targets
of the using directives beside the way up from the place, and those of the global using
directives at the top of any file.

The order of the imported namespaces and the removal of duplicates among them are not
part of this.
-/

namespace StubGen

namespace Compilation

/-- The namespaces imported at a node of a tree. -/
inductive Imports (c : Compilation) (t : Tree) (i : Fin t.size) : Namespace → Prop
  /-- The target of a directive directly below a node above. -/
  | beside {above directive : Fin t.size} (habove : above ∈ t.ancestors i)
      (hparent : t.parent directive = some above)
      (hkind : (t.declaration directive).kind = .usingDirective) :
      Imports c t i (Namespace.ofDotted (t.declaration directive).name)
  /-- The target of a global directive at the top of a file. -/
  | everywhere {file : Tree} {directive : Fin file.size} (hfile : file ∈ c.trees)
      (hparent : file.parent directive = some file.root)
      (hkind : (file.declaration directive).kind = .usingDirective)
      (hglobal : (file.declaration directive).modifiers.contains Modifiers.globalToken = true) :
      Imports c t i (Namespace.ofDotted (file.declaration directive).name)

/-- Adding what is new makes a list hold the elements of both. -/
theorem mem_addNew {known more : List Namespace} {n : Namespace} :
    n ∈ addNew known more ↔ n ∈ known ∨ n ∈ more := by
  unfold addNew
  induction more generalizing known with
  | nil => simp
  | cons first rest ih =>
    rw [List.foldl_cons, ih, List.mem_cons]
    by_cases hfirst : first ∈ known
    · rw [if_pos hfirst]
      constructor
      · rintro (h | h)
        · exact Or.inl h
        · exact Or.inr (Or.inr h)
      · rintro (h | rfl | h)
        · exact Or.inl h
        · exact Or.inl hfirst
        · exact Or.inr h
    · rw [if_neg hfirst, List.mem_append, List.mem_singleton, or_assoc]

/-- A file's global using directives import the targets of those at its top. -/
theorem mem_globalUsingsOf {t : Tree} {n : Namespace} :
    n ∈ globalUsingsOf t ↔ ∃ j, t.parent j = some t.root ∧
      (t.declaration j).kind = .usingDirective ∧
      (t.declaration j).modifiers.contains Modifiers.globalToken = true ∧
      Namespace.ofDotted (t.declaration j).name = n := by
  unfold globalUsingsOf
  rw [List.mem_filterMap]
  constructor
  · rintro ⟨d, hd, hn⟩
    obtain ⟨j, hj, rfl⟩ := List.mem_map.mp hd
    split at hn
    · rename_i hdirective
      exact ⟨j, Tree.mem_children.mp hj, hdirective.1, hdirective.2, Option.some.inj hn⟩
    · simp at hn
  · rintro ⟨j, hj, hkind, hglobal, rfl⟩
    refine ⟨t.declaration j, List.mem_map_of_mem (Tree.mem_children.mpr hj), ?_⟩
    rw [if_pos ⟨hkind, hglobal⟩]

/-- The compilation imports for all files what any of them imports for all. -/
theorem mem_globalUsings {c : Compilation} {n : Namespace} :
    n ∈ c.globalUsings ↔ ∃ t ∈ c.trees, n ∈ globalUsingsOf t := by
  unfold globalUsings
  rw [mem_addNew, List.mem_flatMap]
  simp

end Compilation

namespace Model

variable {m : Model} {i p : Fin m.tree.size}

/-- The segments by which a declaration extends the namespace around its members. -/
def ownSegments (d : Declaration) : List String :=
  if d.kind = .namespaceDeclaration then (Namespace.ofDotted d.name).segments else []

/-- The compilation unit stands in the global namespace. -/
theorem enclosingNamespace_of_parent_none (h : m.tree.parent i = none) :
    m.enclosingNamespace i = Namespace.globalNamespace := by
  unfold enclosingNamespace
  rw [Tree.ancestors_of_parent_none h]
  rfl

/-- A member stands in the namespace of its parent, extended by the parent if that
declares a namespace. -/
theorem enclosingNamespace_of_parent (h : m.tree.parent i = some p) :
    m.enclosingNamespace i =
      ⟨(m.enclosingNamespace p).segments ++ ownSegments (m.tree.declaration p)⟩ := by
  unfold enclosingNamespace ownSegments
  rw [Tree.ancestors_of_parent h, List.map_cons, List.filter_cons]
  by_cases hkind : (m.tree.declaration p).kind = .namespaceDeclaration
  · rw [if_pos (by simpa using hkind), if_pos hkind, List.reverse_cons, List.flatMap_append,
      List.flatMap_singleton]
  · rw [if_neg (by simpa using hkind), if_neg hkind, List.append_nil]

/-- A node stands in a namespace with proper segments, whatever the texts in the tree. -/
theorem enclosingNamespace_proper (i : Fin m.tree.size) : (m.enclosingNamespace i).Proper := by
  induction i using Tree.parent_induction with
  | root i hnone =>
    rw [enclosingNamespace_of_parent_none hnone]
    intro s hs
    simp [Namespace.globalNamespace] at hs
  | child i p hp ih =>
    rw [enclosingNamespace_of_parent hp]
    intro s hs
    rcases List.mem_append.mp hs with hs | hs
    · exact ih s hs
    · unfold ownSegments at hs
      split at hs
      · exact Namespace.ofDotted_proper _ s hs
      · simp at hs

/-- The using directives of a node's own file import the targets of those beside its way
up. -/
theorem mem_localUsings {n : Namespace} :
    n ∈ m.localUsings i ↔ ∃ above ∈ m.tree.ancestors i, ∃ j, m.tree.parent j = some above ∧
      (m.tree.declaration j).kind = .usingDirective ∧
      Namespace.ofDotted (m.tree.declaration j).name = n := by
  unfold localUsings
  constructor
  · intro h
    obtain ⟨d, hd, rfl⟩ := List.mem_map.mp h
    obtain ⟨hd, hkind⟩ := List.mem_filter.mp hd
    obtain ⟨j, hj, rfl⟩ := List.mem_map.mp hd
    obtain ⟨above, habove, hj⟩ := List.mem_flatMap.mp hj
    exact ⟨above, habove, j, Tree.mem_children.mp hj, by simpa using hkind, rfl⟩
  · rintro ⟨above, habove, j, hj, hkind, rfl⟩
    have hbelow : j ∈ (m.tree.ancestors i).flatMap m.tree.children :=
      List.mem_flatMap.mpr ⟨above, habove, Tree.mem_children.mpr hj⟩
    exact List.mem_map_of_mem
      (List.mem_filter.mpr ⟨List.mem_map_of_mem hbelow, by simpa using hkind⟩)

/-- The visible usings of a node are the namespaces imported there. -/
theorem mem_usings {c : Compilation} {t : Tree} {i : Fin t.size} {n : Namespace} :
    n ∈ (c.model t).usings i ↔ c.Imports t i n := by
  unfold usings
  rw [Compilation.mem_addNew]
  constructor
  · rintro (h | h)
    · obtain ⟨above, habove, j, hj, hkind, rfl⟩ := mem_localUsings.mp h
      exact .beside habove hj hkind
    · obtain ⟨file, hfile, h⟩ := Compilation.mem_globalUsings.mp h
      obtain ⟨j, hj, hkind, hglobal, rfl⟩ := Compilation.mem_globalUsingsOf.mp h
      exact .everywhere hfile hj hkind hglobal
  · intro h
    cases h with
    | beside habove hparent hkind =>
      exact Or.inl (mem_localUsings.mpr ⟨_, habove, _, hparent, hkind, rfl⟩)
    | everywhere hfile hparent hkind hglobal =>
      have hmem := Compilation.mem_globalUsingsOf.mpr ⟨_, hparent, hkind, hglobal, rfl⟩
      exact Or.inr (Compilation.mem_globalUsings.mpr ⟨_, hfile, hmem⟩)

/-- A name is looked up in the prefixes of the enclosing namespace, and where usings count
in the imported namespaces too. -/
theorem mem_lookupScopes {withUsings : Bool} {scope : Namespace} :
    scope ∈ m.lookupScopes i withUsings ↔
      scope.segments <+: (m.enclosingNamespace i).segments ∨
        withUsings = true ∧ scope ∈ m.usings i := by
  unfold lookupScopes
  rw [List.mem_append, Namespace.mem_self_allContaining]
  cases withUsings <;> simp

end Model

end StubGen

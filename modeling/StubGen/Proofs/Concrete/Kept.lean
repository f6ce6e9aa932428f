import StubGen.Tree.OfConcrete

/-!
# The declarations of a concrete tree

Which nodes of a concrete tree are declarations of the file is stated over positions: a
position is the list of the child numbers on the way down from the root. Members stand in
the bodies of namespaces and of types other than enums, and in preprocessor blocks, and
among the members some are kept.

Positions are compared lexicographically. A node comes before what it holds, and that
before its later siblings, so the order of positions is the order of the text.
-/

namespace StubGen

namespace ConcreteNode

variable {node : ConcreteNode}

/-- A namespace, with a block or for the rest of the file. -/
def IsNamespace (node : ConcreteNode) : Prop :=
  node.kind = "namespace_declaration" ∨ node.kind = "file_scoped_namespace_declaration"

/-- The declaration of a type. -/
def IsType (node : ConcreteNode) : Prop := node.kind ∈ typeDeclarationKinds

/-- The declaration of a method. -/
def IsMethod (node : ConcreteNode) : Prop := node.kind = "method_declaration"

/-- A using directive. -/
def IsUsing (node : ConcreteNode) : Prop := node.kind = "using_directive"

/-- A preprocessor block. -/
def IsPreprocessor (node : ConcreteNode) : Prop := Text.startsWith "preproc_" node.kind = true

/-- A declaration of another kind, and no preprocessor block. -/
def IsOtherDeclaration (node : ConcreteNode) : Prop :=
  Text.endsWith "_declaration" node.kind = true ∧
    ¬ (node.IsNamespace ∨ node.IsType ∨ node.IsMethod ∨ node.IsPreprocessor)

/-- The kinds that are singled out by name are not those of preprocessor blocks. -/
theorem not_isPreprocessor_of_mem {kind : String}
    (h : kind ∈ "namespace_declaration" :: "file_scoped_namespace_declaration" ::
      "method_declaration" :: "using_directive" :: typeDeclarationKinds) :
    Text.startsWith "preproc_" kind = false := by
  revert kind
  decide

/-- A namespace is no type. -/
theorem IsNamespace.not_isType (h : node.IsNamespace) : ¬ node.IsType := by
  unfold IsType
  rcases h with h | h <;> rw [h] <;> decide

/-- A namespace is no preprocessor block. -/
theorem IsNamespace.not_isPreprocessor (h : node.IsNamespace) : ¬ node.IsPreprocessor := by
  unfold IsPreprocessor
  rcases h with h | h <;> rw [h] <;> decide

/-- A type is no preprocessor block. -/
theorem IsType.not_isPreprocessor (h : node.IsType) : ¬ node.IsPreprocessor := by
  unfold IsPreprocessor
  rw [not_isPreprocessor_of_mem (by simp only [List.mem_cons]; exact .inr (.inr (.inr (.inr h))))]
  decide

/-- What the role of a node says about its kind. -/
inductive RoleOf (node : ConcreteNode) : MemberRole → Prop
  | fileScopedNamespace (hnamed : node.named = true)
      (hkind : node.kind = "file_scoped_namespace_declaration") : RoleOf node .fileScopedNamespace
  | namespaceBlock (hnamed : node.named = true) (hkind : node.kind = "namespace_declaration") :
      RoleOf node .namespaceBlock
  | usingDirective (hnamed : node.named = true) (hkind : node.IsUsing) :
      RoleOf node .usingDirective
  | typeDeclaration (hnamed : node.named = true) (hkind : node.IsType) :
      RoleOf node .typeDeclaration
  | methodDeclaration (hnamed : node.named = true) (hkind : node.IsMethod) :
      RoleOf node .methodDeclaration
  | preprocessor (hnamed : node.named = true) (hkind : node.IsPreprocessor) :
      RoleOf node .preprocessor
  | otherDeclaration (hnamed : node.named = true) (hkind : node.IsOtherDeclaration) :
      RoleOf node .otherDeclaration
  | unnamed (hnamed : node.named = false) : RoleOf node .ignored
  | ignored (hkind : ¬ (node.IsNamespace ∨ node.IsUsing ∨ node.IsType ∨ node.IsMethod ∨
      node.IsPreprocessor ∨ node.IsOtherDeclaration)) : RoleOf node .ignored

/-- The role of a node goes by its kind. -/
theorem roleOf_role (node : ConcreteNode) : node.RoleOf node.role := by
  unfold role
  by_cases hnamed : node.named = true
  · rw [if_neg (by simp [hnamed])]
    by_cases hfile : node.kind = "file_scoped_namespace_declaration"
    · rw [if_pos (by simp [hfile])]
      exact .fileScopedNamespace hnamed hfile
    rw [if_neg (by simp [hfile])]
    by_cases hblock : node.kind = "namespace_declaration"
    · rw [if_pos (by simp [hblock])]
      exact .namespaceBlock hnamed hblock
    rw [if_neg (by simp [hblock])]
    by_cases husing : node.kind = "using_directive"
    · rw [if_pos (by simp [husing])]
      exact .usingDirective hnamed husing
    rw [if_neg (by simp [husing])]
    by_cases htype : node.kind ∈ typeDeclarationKinds
    · rw [if_pos (by simpa using htype)]
      exact .typeDeclaration hnamed htype
    rw [if_neg (by simpa using htype)]
    by_cases hmethod : node.kind = "method_declaration"
    · rw [if_pos (by simp [hmethod])]
      exact .methodDeclaration hnamed hmethod
    rw [if_neg (by simp [hmethod])]
    by_cases hblocks : Text.startsWith "preproc_" node.kind = true
    · rw [if_pos hblocks]
      exact .preprocessor hnamed hblocks
    rw [if_neg hblocks]
    have hnone : ¬ (node.IsNamespace ∨ node.IsType ∨ node.IsMethod ∨ node.IsPreprocessor) := by
      simp only [IsNamespace, IsType, IsMethod, IsPreprocessor, not_or]
      exact ⟨⟨hblock, hfile⟩, htype, hmethod, hblocks⟩
    by_cases hother : Text.endsWith "_declaration" node.kind = true
    · rw [if_pos hother]
      exact .otherDeclaration hnamed ⟨hother, hnone⟩
    · rw [if_neg hother]
      refine .ignored ?_
      simp only [not_or] at hnone ⊢
      exact ⟨hnone.1, husing, hnone.2.1, hnone.2.2.1, hnone.2.2.2, fun h => hother h.1⟩
  · rw [if_pos (by simpa using hnamed)]
    exact .unnamed (by simpa using hnamed)

/-- A named namespace has one of the two roles of namespaces. -/
theorem role_of_isNamespace (hnamed : node.named = true) (h : node.IsNamespace) :
    node.role = .namespaceBlock ∨ node.role = .fileScopedNamespace := by
  unfold role
  rw [hnamed]
  rcases h with h | h
  · rw [h]
    exact Or.inl (by decide)
  · rw [h]
    exact Or.inr (by decide)

/-- The role of a named node that declares a type. -/
theorem role_of_isType (hnamed : node.named = true) (h : node.IsType) :
    node.role = .typeDeclaration := by
  unfold IsType at h
  unfold role
  rw [hnamed]
  revert h
  generalize node.kind = kind
  revert kind
  decide

/-- The role of a named node that declares a method. -/
theorem role_of_isMethod (hnamed : node.named = true) (h : node.IsMethod) :
    node.role = .methodDeclaration := by
  unfold role
  rw [hnamed, h]
  decide

/-- The role of a named using directive. -/
theorem role_of_isUsing (hnamed : node.named = true) (h : node.IsUsing) :
    node.role = .usingDirective := by
  unfold role
  rw [hnamed, h]
  decide

/-- The role of a named preprocessor block. -/
theorem role_of_isPreprocessor (hnamed : node.named = true) (h : node.IsPreprocessor) :
    node.role = .preprocessor := by
  have hkind : node.kind ∉ "namespace_declaration" :: "file_scoped_namespace_declaration" ::
      "method_declaration" :: "using_directive" :: typeDeclarationKinds := by
    intro hmem
    rw [IsPreprocessor, not_isPreprocessor_of_mem hmem] at h
    exact absurd h (by decide)
  simp only [List.mem_cons, not_or] at hkind
  obtain ⟨hblock, hfile, hmethod, husing, htype⟩ := hkind
  have hblocks : Text.startsWith "preproc_" node.kind = true := h
  simp [role, hnamed, hblock, hfile, hmethod, husing, htype, hblocks]

/-- The role of a named node that is a declaration of another kind. -/
theorem role_of_isOtherDeclaration (hnamed : node.named = true) (h : node.IsOtherDeclaration) :
    node.role = .otherDeclaration := by
  have husing : node.kind ≠ "using_directive" := by
    intro hkind
    have hends := h.1
    rw [hkind] at hends
    exact absurd hends (by decide)
  obtain ⟨hends, hnone⟩ := h
  simp only [IsNamespace, IsType, IsMethod, IsPreprocessor, not_or] at hnone
  obtain ⟨⟨hblock, hfile⟩, htype, hmethod, hblocks⟩ := hnone
  simp [role, hnamed, hblock, hfile, hmethod, husing, htype, hblocks, hends]

/-- The entries of some lists are no members. -/
theorem role_of_isNamed_entry {kind : String} (hkind : kind ∈ ["attribute", "type_parameter"])
    (h : node.isNamed kind = true) : node.role = .ignored := by
  obtain ⟨hnamed, hkind'⟩ := Bool.and_eq_true_iff.mp h
  unfold role
  rw [hnamed, beq_iff_eq.mp hkind']
  clear h hkind'
  revert kind
  decide

end ConcreteNode

namespace Concrete

/-- The node at a position. -/
def at? (c : Concrete) : List Nat → Option Concrete
  | [] => some c
  | k :: position => c.children[k]?.bind fun d => d.at? position

/-- The first child with a property, by its number. -/
def FirstChild (c : Concrete) (p : ConcreteNode → Bool) (k : Nat) (b : Concrete) : Prop :=
  c.children[k]? = some b ∧ p b.node = true ∧
    ∀ j < k, ∀ d, c.children[j]? = some d → p d.node = false

/-- The node that has the members of a declaration as its children, by its position below
the declaration. -/
inductive Opens (c : Concrete) : List Nat → Concrete → Prop
  /-- The body of a namespace. -/
  | namespaceBody {k : Nat} {b : Concrete} (hkind : c.node.IsNamespace)
      (hbody : c.FirstChild (·.fills "body") k b) : Opens c [k] b
  /-- A namespace without a body. -/
  | namespaceItself (hkind : c.node.IsNamespace)
      (hnone : ∀ d ∈ c.children, d.node.fills "body" = false) : Opens c [] c
  /-- The body of a type that is no enum. -/
  | typeBody {k : Nat} {b : Concrete} (hkind : c.node.IsType)
      (henum : c.node.kind ≠ "enum_declaration")
      (hbody : c.FirstChild (·.fills "body") k b) : Opens c [k] b
  /-- The list that stands for the body of a type. -/
  | typeList {k : Nat} {b : Concrete} (hkind : c.node.IsType)
      (henum : c.node.kind ≠ "enum_declaration")
      (hnone : ∀ d ∈ c.children, d.node.fills "body" = false)
      (hlist : c.FirstChild (·.isNamed "declaration_list") k b) : Opens c [k] b
  /-- A preprocessor block. -/
  | preprocessor (hkind : c.node.IsPreprocessor) : Opens c [] c

/-- The members below a node whose children are members, by their positions. -/
inductive HasMember : Concrete → List Nat → Concrete → Prop
  | child {c d : Concrete} {k : Nat} (hchild : c.children[k]? = some d)
      (hnamed : d.node.named = true) : HasMember c [k] d
  | inside {c d b e : Concrete} {k : Nat} {via path : List Nat}
      (hchild : c.children[k]? = some d) (hnamed : d.node.named = true) (hopens : d.Opens via b)
      (hmember : HasMember b path e) : HasMember c (k :: (via ++ path)) e

/-- A using directive that brings a namespace into scope: no alias, not static, and with a
target. -/
def ImportsNamespace (c : Concrete) : Prop :=
  (∀ d ∈ c.children, d.node.fills "name" = false) ∧
    (∀ d ∈ c.children, d.node.isKeyword "static" = false) ∧
      ∃ d ∈ c.children, d.node.named = true ∧ d.node.kind ∈ usingTargetKinds

/-- A member that is a declaration. -/
def IsDeclaration (c : Concrete) : Prop :=
  c.node.IsNamespace ∨ c.node.IsType ∨ c.node.IsMethod ∨ c.node.IsOtherDeclaration ∨
    c.node.IsUsing ∧ c.ImportsNamespace

/-- The nodes of a file's concrete tree that are kept, by their positions. -/
def Keeps (c : Concrete) (position : List Nat) (d : Concrete) : Prop :=
  c.HasMember position d ∧ d.IsDeclaration

variable {c b d : Concrete}

/-- Positions are followed one after the other. -/
theorem at?_append (c : Concrete) (first second : List Nat) :
    c.at? (first ++ second) = (c.at? first).bind fun d => d.at? second := by
  induction first generalizing c with
  | nil => rfl
  | cons k first ih =>
    simp only [List.cons_append, at?, ih]
    cases c.children[k]? <;> rfl

/-- What a node opens stands at its position. -/
theorem Opens.at?_eq {via : List Nat} (h : c.Opens via b) : c.at? via = some b := by
  cases h with
  | namespaceBody _ hbody | typeBody _ _ hbody =>
    rw [at?, hbody.1]
    rfl
  | typeList _ _ _ hlist =>
    rw [at?, hlist.1]
    rfl
  | namespaceItself | preprocessor => rfl

/-- Members are named nodes. -/
theorem HasMember.named {position : List Nat} (h : c.HasMember position d) :
    d.node.named = true := by
  induction h with
  | child _ hnamed => exact hnamed
  | inside _ _ _ _ ih => exact ih

/-- A member stands at its position. -/
theorem HasMember.at?_eq {position : List Nat} (h : c.HasMember position d) :
    c.at? position = some d := by
  induction h with
  | child hchild _ =>
    rw [at?, hchild]
    rfl
  | inside hchild _ hopens _ ih =>
    rw [at?, hchild, Option.bind_some, at?_append, hopens.at?_eq, Option.bind_some, ih]

/-- A node without children. -/
def leaf (kind : String) (named : Bool) (start stop : Nat) (field : Option String := none) :
    Concrete where
  node :=
    { kind := kind, named := named, isError := false, isMissing := false, start := start
      stop := stop, field := field }
  below := .nil

/-- A named node over the given nodes. -/
def branch (kind : String) (start stop : Nat) (children : List Concrete)
    (field : Option String := none) : Concrete where
  node := (leaf kind true start stop field).node
  below := children.foldr (fun child rest => .cons child.node child.below rest) .nil

/-- The nodes over which a node was made are its children. -/
@[simp] theorem children_branch (kind : String) (start stop : Nat) (nodes : List Concrete)
    (field : Option String) : (branch kind start stop nodes field).children = nodes := by
  unfold branch children
  induction nodes with
  | nil => rfl
  | cons first rest ih => simpa [Forest.trees] using ih

end Concrete

end StubGen

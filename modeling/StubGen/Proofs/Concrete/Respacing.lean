import Mathlib.Data.List.Forall2
import StubGen.Proofs.Concrete.Naming

/-!
# Other spacing

Two concrete trees with the same nodes and the same tokens may still differ in where the nodes
stand, and each is read with its own text. The spacing between tokens is all that such trees differ
in. What is read off them node by node corresponds: searches among the children find corresponding
nodes, and the tokens of a name spell the same.
-/

namespace StubGen

/-- The nodes differ at most in their places and in what the parser says about them. -/
structure ConcreteNode.Alike (a b : ConcreteNode) : Prop where
  kind : a.kind = b.kind
  named : a.named = b.named
  field : a.field = b.field

instance (a b : ConcreteNode) : Decidable (a.Alike b) :=
  decidable_of_iff (a.kind = b.kind ∧ a.named = b.named ∧ a.field = b.field)
    ⟨fun h => ⟨h.1, h.2.1, h.2.2⟩, fun h => ⟨h.kind, h.named, h.field⟩⟩

namespace ConcreteNode

variable {a b : ConcreteNode}

/-- Nodes that are alike have the same role. -/
theorem Alike.role (h : a.Alike b) : a.role = b.role := by
  simp only [ConcreteNode.role, h.kind, h.named]

/-- They are of the same kind. -/
theorem Alike.isNamed (h : a.Alike b) (kind : String) : a.isNamed kind = b.isNamed kind := by
  rw [ConcreteNode.isNamed, ConcreteNode.isNamed, h.kind, h.named]

/-- They are the same keyword. -/
theorem Alike.isKeyword (h : a.Alike b) (keyword : String) :
    a.isKeyword keyword = b.isKeyword keyword := by
  rw [ConcreteNode.isKeyword, ConcreteNode.isKeyword, h.kind, h.named]

/-- They fill the same field. -/
theorem Alike.fills (h : a.Alike b) (field : String) : a.fills field = b.fills field := by
  rw [ConcreteNode.fills, ConcreteNode.fills, h.field]

end ConcreteNode

namespace Concrete

/-- The second sequence of nodes, read with the second text, is the first one with other spacing:
the nodes are the same but for their places, and every token spells the same. -/
inductive Respaced (source source' : String) : Forest ConcreteNode → Forest ConcreteNode → Prop
  | nil : Respaced source source' .nil .nil
  | cons {node node' : ConcreteNode} {below below' rest rest' : Forest ConcreteNode}
      (hnode : node.Alike node')
      (htoken : below = .nil → node.compactText source = node'.compactText source')
      (hbelow : Respaced source source' below below')
      (hrest : Respaced source source' rest rest') :
      Respaced source source' (.cons node below rest) (.cons node' below' rest')

/-- Trees are compared one after the other. -/
theorem respaced_cons {source source' : String} {node node' : ConcreteNode}
    {below below' rest rest' : Forest ConcreteNode} :
    Respaced source source' (.cons node below rest) (.cons node' below' rest') ↔
      node.Alike node' ∧
        (below = .nil → node.compactText source = node'.compactText source') ∧
        Respaced source source' below below' ∧ Respaced source source' rest rest' := by
  constructor
  · intro h
    cases h with
    | cons hnode htoken hbelow hrest => exact ⟨hnode, htoken, hbelow, hrest⟩
  · intro h
    exact .cons h.1 h.2.1 h.2.2.1 h.2.2.2

instance decidableRespaced (source source' : String) :
    ∀ f f', Decidable (Respaced source source' f f')
  | .nil, .nil => isTrue .nil
  | .nil, .cons _ _ _ => isFalse nofun
  | .cons _ _ _, .nil => isFalse nofun
  | .cons _ below rest, .cons _ below' rest' =>
    have := decidableRespaced source source' below below'
    have := decidableRespaced source source' rest rest'
    decidable_of_iff _ respaced_cons.symm

/-- The second tree is the first one with other spacing. -/
structure RespacedTo (source source' : String) (c c' : Concrete) : Prop where
  node : c.node.Alike c'.node
  token : c.below = .nil → c.node.compactText source = c'.node.compactText source'
  below : Respaced source source' c.below c'.below

section Corresponding

variable {α β : Type} {R : α → β → Prop}

/-- Elements with a property correspond if corresponding ones both have it or neither has. -/
theorem forall₂_filter {list : List α} {list' : List β} (h : List.Forall₂ R list list')
    {p : α → Bool} {p' : β → Bool} (hp : ∀ a b, R a b → p a = p' b) :
    List.Forall₂ R (list.filter p) (list'.filter p') :=
  List.rel_filter (fun a b hab => Bool.eq_iff_iff.mp (hp a b hab)) h

/-- The first elements of corresponding lists correspond. -/
theorem rel_head? {list : List α} {list' : List β} (h : List.Forall₂ R list list') :
    Option.Rel R list.head? list'.head? := by
  cases h with
  | nil => exact .none
  | cons hfirst => exact .some hfirst

/-- So do the first ones with such a property. -/
theorem rel_find? {list : List α} {list' : List β} (h : List.Forall₂ R list list')
    {p : α → Bool} {p' : β → Bool} (hp : ∀ a b, R a b → p a = p' b) :
    Option.Rel R (list.find? p) (list'.find? p') := by
  rw [← List.head?_filter, ← List.head?_filter]
  exact rel_head? (forall₂_filter h hp)

/-- Where nothing is found, what is taken instead corresponds. -/
theorem rel_getD {found : Option α} {found' : Option β} (h : Option.Rel R found found') {a : α}
    {b : β} (hab : R a b) : R (found.getD a) (found'.getD b) := by
  cases h with
  | none => exact hab
  | some h => exact h

/-- Where the first finds correspond and the second ones do, the first of both does. -/
theorem rel_or {first second : Option α} {first' second' : Option β}
    (h : Option.Rel R first first') (h' : Option.Rel R second second') :
    Option.Rel R (first.or second) (first'.or second') := by
  cases h with
  | none => exact h'
  | some h => exact .some h

/-- Either both are found or neither is. -/
theorem isSome_of_rel {found : Option α} {found' : Option β} (h : Option.Rel R found found') :
    found.isSome = found'.isSome := by
  cases h with
  | none | some => rfl

/-- What is read off corresponding finds is the same. -/
theorem map_eq_of_rel {γ : Type} {read : α → γ} {read' : β → γ} {found : Option α}
    {found' : Option β} (h : Option.Rel R found found') (hread : ∀ a b, R a b → read a = read' b) :
    found.map read = found'.map read' := by
  cases h with
  | none => rfl
  | some h => exact congrArg some (hread _ _ h)

/-- What is read off corresponding elements is the same. -/
theorem map_eq_of_forall₂ {γ : Type} {read : α → γ} {read' : β → γ} {list : List α}
    {list' : List β} (h : List.Forall₂ R list list') (hread : ∀ a b, R a b → read a = read' b) :
    list.map read = list'.map read' := by
  induction h with
  | nil => rfl
  | cons hfirst _ ih => rw [List.map_cons, List.map_cons, hread _ _ hfirst, ih]

end Corresponding

variable {source source' : String} {c c' : Concrete} {f f' : Forest ConcreteNode}

/-- The trees of the sequences correspond. -/
theorem Respaced.forall₂_children (h : Respaced source source' f f') (unit unit' : ConcreteNode) :
    List.Forall₂ (RespacedTo source source') (⟨unit, f⟩ : Concrete).children
      (⟨unit', f'⟩ : Concrete).children := by
  induction h with
  | nil => exact .nil
  | cons hnode htoken hbelow _ _ ih => exact .cons ⟨hnode, htoken, hbelow⟩ ih

/-- The tokens of the sequences spell the same. -/
theorem Respaced.map_leaves (h : Respaced source source' f f') :
    f.leaves.map (·.compactText source) = f'.leaves.map (·.compactText source') := by
  induction h with
  | nil => rfl
  | cons hnode htoken hbelow _ ihBelow ihRest =>
    cases hbelow with
    | nil => simp only [Forest.leaves, List.map_cons, htoken rfl, ihRest]
    | cons => simp only [Forest.leaves, List.map_append, ihBelow, ihRest]

namespace RespacedTo

variable {p : ConcreteNode → Bool}

/-- The children correspond. -/
theorem children (h : c.RespacedTo source source' c') :
    List.Forall₂ (RespacedTo source source') c.children c'.children :=
  h.below.forall₂_children c.node c'.node

/-- The first children with a property of nodes correspond. -/
theorem find? (h : c.RespacedTo source source' c') (hp : ∀ a b, a.Alike b → p a = p b) :
    Option.Rel (RespacedTo source source') (c.children.find? (p ·.node))
      (c'.children.find? (p ·.node)) :=
  rel_find? h.children fun _ _ hab => hp _ _ hab.node

/-- The same keywords are there. -/
theorem hasKeyword (h : c.RespacedTo source source' c') (keyword : String) :
    c.hasKeyword keyword = c'.hasKeyword keyword := by
  have hfound := isSome_of_rel (h.find? fun _ _ hab => hab.isKeyword keyword)
  rwa [List.isSome_find?, List.isSome_find?] at hfound

/-- The named children correspond. -/
theorem namedChildren (h : c.RespacedTo source source' c') :
    List.Forall₂ (RespacedTo source source') c.namedChildren c'.namedChildren :=
  forall₂_filter h.children fun _ _ hab => hab.node.named

/-- The targets of using directives correspond. -/
theorem target? (h : c.RespacedTo source source' c') :
    Option.Rel (RespacedTo source source')
      (c.namedChildren.find? fun child => usingTargetKinds.contains child.node.kind)
      (c'.namedChildren.find? fun child => usingTargetKinds.contains child.node.kind) :=
  rel_find? h.namedChildren fun _ _ hab => by rw [hab.node.kind]

/-- The nodes of the names correspond. -/
theorem nameNode? (h : c.RespacedTo source source' c') :
    Option.Rel (RespacedTo source source') c.nameNode? c'.nameNode? := by
  have hfield : Option.Rel (RespacedTo source source') (c.field? "name") (c'.field? "name") :=
    h.find? fun _ _ hab => hab.fills "name"
  unfold Concrete.nameNode?
  rw [← h.node.role]
  cases c.node.role with
  | usingDirective =>
    exact h.target?
  | fileScopedNamespace | namespaceBlock | typeDeclaration | methodDeclaration
  | otherDeclaration => exact hfield
  | preprocessor => exact .none
  | ignored =>
    simp only [h.node.isNamed]
    split
    · exact rel_or hfield (rel_head? h.namedChildren)
    · exact .none

/-- The tokens spell the same name. -/
theorem spelledName (h : c.RespacedTo source source' c') :
    c.spelledName source = c'.spelledName source' := by
  have htokens (a b : Concrete) (hab : a.RespacedTo source source' b) :
      a.tokens.map (·.compactText source) = b.tokens.map (·.compactText source') :=
    Respaced.map_leaves (.cons hab.node hab.token hab.below .nil)
  have hname : c.nameTokens.map (·.compactText source) =
      c'.nameTokens.map (·.compactText source') := by
    have hrel := h.nameNode?
    unfold nameTokens
    generalize c.nameNode? = found at hrel ⊢
    generalize c'.nameNode? = found' at hrel ⊢
    cases hrel with
    | none => rfl
    | some hab => exact htokens _ _ hab
  simp only [Concrete.spelledName, nameOf, spelled_eq_join, hname, h.node.role]

/-- The applications of attributes correspond. -/
theorem appliedAttributes (h : c.RespacedTo source source' c') :
    List.Forall₂ (RespacedTo source source') c.appliedAttributes c'.appliedAttributes := by
  have hlists : List.Forall₂ (RespacedTo source source')
      (c.children.filter (·.node.isNamed "attribute_list"))
      (c'.children.filter (·.node.isNamed "attribute_list")) :=
    forall₂_filter h.children fun _ _ hab => hab.node.isNamed "attribute_list"
  have happlied := List.rel_flatMap hlists fun _ _ hlist =>
    forall₂_filter hlist.children fun _ _ hab => hab.node.isNamed "attribute"
  unfold Concrete.appliedAttributes
  rw [← h.node.role]
  cases c.node.role with
  | typeDeclaration | methodDeclaration => exact happlied
  | fileScopedNamespace | namespaceBlock | usingDirective | otherDeclaration | preprocessor
  | ignored => exact .nil

/-- Declared types have the same form. -/
theorem typeForm (h : c.RespacedTo source source' c') : c.typeForm = c'.typeForm := by
  simp only [Concrete.typeForm, h.node.kind, h.hasKeyword]

/-- What is opened corresponds. -/
theorem opened? (h : c.RespacedTo source source' c') :
    Option.Rel (RespacedTo source source') c.opened? c'.opened? := by
  have hbody : Option.Rel (RespacedTo source source') (c.field? "body") (c'.field? "body") :=
    h.find? fun _ _ hab => hab.fills "body"
  have hlist : Option.Rel (RespacedTo source source') (c.namedChild? "declaration_list")
      (c'.namedChild? "declaration_list") :=
    h.find? fun _ _ hab => hab.isNamed "declaration_list"
  unfold Concrete.opened?
  rw [← h.node.role, ← h.typeForm]
  cases c.node.role with
  | fileScopedNamespace | namespaceBlock =>
    exact .some (rel_getD hbody h)
  | typeDeclaration =>
    simp only
    split
    · exact .none
    · exact rel_or hbody hlist
  | preprocessor => exact .some h
  | usingDirective | methodDeclaration | otherDeclaration | ignored => exact .none

end RespacedTo

end Concrete

end StubGen

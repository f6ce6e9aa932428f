import Mathlib.Data.List.Basic
import Mathlib.Tactic.SplitIfs
import StubGen.Proofs.Concrete.Kept

/-!
# What a member contributes

The declarations of a sequence of nodes are, node by node, the declaration of the node
itself and then those of the node that it opens. Where a file-scoped namespace takes in
its followers, only what stands below what changes, not the order.

What a node contributes is nothing but a matter of its role, and the case distinction on
roles is made here once.
-/

namespace StubGen

/-- A property of all forests, if a forest has it whenever the rest, the forest below its
first tree and the forests one level further down have it. -/
theorem Forest.two_level_induction {α : Type} {motive : Forest α → Prop} (nil : motive .nil)
    (cons : ∀ label children rest, motive children → (∀ b ∈ children.trees, motive b.2) →
      motive rest → motive (.cons label children rest)) (f : Forest α) : motive f := by
  have hboth : motive f ∧ ∀ b ∈ f.trees, motive b.2 := by
    induction f with
    | nil => exact ⟨nil, fun b hb => absurd hb List.not_mem_nil⟩
    | cons label children rest ihc ihr =>
      refine ⟨cons label children rest ihc.1 ihc.2 ihr.1, ?_⟩
      intro b hb
      rcases List.mem_cons.mp hb with rfl | hb
      · exact ihc.1
      · exact ihr.2 b hb
  exact hboth.1

namespace Concrete

variable {c b d : Concrete} {source : String} {k : Nat} {via : List Nat}

/-- The declarations found in a sequence of nodes, in pre-order. -/
def declarations (source : String) (f : Forest ConcreteNode) : List Declaration :=
  (members source f).all.labels

/-- The declaration of a member itself. -/
def declared? (source : String) (c : Concrete) : Option Declaration :=
  match c.node.role with
  | .fileScopedNamespace | .namespaceBlock => some (c.namespaceDeclaration source)
  | .usingDirective => c.usingDeclaration? source
  | .typeDeclaration => some (c.typeDeclaration source)
  | .methodDeclaration => some (c.methodDeclaration source)
  | .otherDeclaration => some (c.otherDeclaration source)
  | .preprocessor | .ignored => none

/-- The node that has the members of a member as its children. -/
def opened? (c : Concrete) : Option Concrete :=
  match c.node.role with
  | .fileScopedNamespace | .namespaceBlock => some ((c.field? "body").getD c)
  | .typeDeclaration =>
    if c.typeForm = .enumType then none
    else (c.field? "body").or (c.namedChild? "declaration_list")
  | .preprocessor => some c
  | .usingDirective | .methodDeclaration | .otherDeclaration | .ignored => none

/-- The declarations that a member contributes below its own. -/
def openedDeclarations (source : String) (c : Concrete) : List Declaration :=
  (c.opened?.map fun b => declarations source b.below).getD []

/-- What stands below the declaration of a member. -/
def openedMembers (source : String) (c : Concrete) : Forest Declaration :=
  (c.opened?.map fun b => (members source b.below).all).getD .nil

/-- What a member adds to a sequence: its declaration, with what it opens below it. -/
def contribution (source : String) (c : Concrete) : Forest Declaration :=
  match c.declared? source with
  | some d => .cons d (c.openedMembers source) .nil
  | none => c.openedMembers source

/-- A search that takes the first node of a kind for the body yields what it finds in the first
child of that kind. -/
theorem search_eq_find? {β : Type} {isBody : ConcreteNode → Bool}
    {search : Forest ConcreteNode → Option β} {found : Forest ConcreteNode → β}
    (hnil : search .nil = none)
    (hcons : ∀ node below rest, search (.cons node below rest) =
      if isBody node then some (found below) else search rest) (c : Concrete) :
    search c.below = (c.children.find? (isBody ·.node)).map fun b => found b.below := by
  obtain ⟨node, below⟩ := c
  unfold children
  simp only
  induction below with
  | nil => exact hnil
  | cons label children rest _ ih =>
    rw [hcons, Forest.trees, List.map_cons, List.find?_cons]
    by_cases hbody : isBody label = true
    · simp only [hbody, if_true, Option.map_some]
    · simp only [hbody, Bool.false_eq_true, if_false]
      exact ih

/-- The members of a body are those below the first child that is taken for it. -/
theorem bodyMembers_eq (source : String) (isBody : ConcreteNode → Bool) (c : Concrete) :
    bodyMembers source isBody c.below =
      (c.children.find? (isBody ·.node)).map fun b => members source b.below :=
  search_eq_find? (by rw [bodyMembers]) (fun node below rest => by rw [bodyMembers]) c

/-- The members of the body of a namespace, or of the namespace without a body. -/
theorem namespaceMembers_eq (source : String) (c : Concrete) :
    ((bodyMembers source (·.fills "body") c.below).getD (members source c.below)).all =
      (members source ((c.field? "body").getD c).below).all := by
  have hbody : bodyMembers source (·.fills "body") c.below =
      (c.field? "body").map fun b => members source b.below := bodyMembers_eq source _ c
  rw [hbody]
  cases c.field? "body" <;> rfl

/-- The members of the body of a type, if it has one. -/
theorem typeMembers_eq (source : String) (c : Concrete) :
    (((bodyMembers source (·.fills "body") c.below).or
        (bodyMembers source (·.isNamed "declaration_list") c.below)).getD {}).all =
      (((c.field? "body").or (c.namedChild? "declaration_list")).map
        fun b => (members source b.below).all).getD .nil := by
  have hbody : bodyMembers source (·.fills "body") c.below =
      (c.field? "body").map fun b => members source b.below := bodyMembers_eq source _ c
  have hlist : bodyMembers source (·.isNamed "declaration_list") c.below =
      (c.namedChild? "declaration_list").map fun b => members source b.below :=
    bodyMembers_eq source _ c
  rw [hbody, hlist]
  cases c.field? "body" with
  | some b => rfl
  | none => cases c.namedChild? "declaration_list" <;> rfl

/-- A file-scoped namespace takes in what stands before the next one. -/
theorem members_cons_of_fileScoped {node : ConcreteNode} (hrole : node.role = .fileScopedNamespace)
    (below rest : Forest ConcreteNode) :
    members source (.cons node below rest) =
      { adopting := .cons ((⟨node, below⟩ : Concrete).namespaceDeclaration source)
          ((⟨node, below⟩ : Concrete).openedMembers source ++ (members source rest).own)
          (members source rest).adopting } := by
  have hnamespace := namespaceMembers_eq source ⟨node, below⟩
  rw [members]
  simp only [hrole, openedMembers, opened?, hnamespace, Option.map_some, Option.getD_some]

/-- Any other node comes before what follows it. -/
theorem members_cons_of_not_fileScoped {node : ConcreteNode}
    (hrole : node.role ≠ .fileScopedNamespace) (below rest : Forest ConcreteNode) :
    members source (.cons node below rest) =
      (members source rest).after ((⟨node, below⟩ : Concrete).contribution source) := by
  have hnamespace := namespaceMembers_eq source ⟨node, below⟩
  have htype := typeMembers_eq source ⟨node, below⟩
  unfold contribution openedMembers opened? declared?
  rw [members]
  cases hkind : node.role with
  | fileScopedNamespace => exact absurd hkind hrole
  | namespaceBlock => simp [← hnamespace]
  | usingDirective =>
    simp only
    cases (⟨node, below⟩ : Concrete).usingDeclaration? source <;> simp [Members.after]
  | typeDeclaration =>
    simp only
    by_cases henum : (⟨node, below⟩ : Concrete).typeForm = .enumType
    · simp [henum, Members.all]
    · simp [henum, ← htype]
  | methodDeclaration | preprocessor | otherDeclaration => simp
  | ignored => simp [Members.after]

/-- The declarations below that of a member. -/
theorem labels_openedMembers (source : String) (c : Concrete) :
    (c.openedMembers source).labels = c.openedDeclarations source := by
  unfold openedMembers openedDeclarations declarations
  cases c.opened? <;> rfl

/-- The declarations that a member adds. -/
theorem labels_contribution (source : String) (c : Concrete) :
    (c.contribution source).labels =
      (c.declared? source).toList ++ c.openedDeclarations source := by
  unfold contribution
  cases c.declared? source <;> simp [Forest.labels, labels_openedMembers]

/-- The declarations of a sequence are those of its first node, those below it and those of
the rest. -/
theorem declarations_cons (node : ConcreteNode) (below rest : Forest ConcreteNode) :
    declarations source (.cons node below rest) =
      ((⟨node, below⟩ : Concrete).declared? source).toList ++
        (⟨node, below⟩ : Concrete).openedDeclarations source ++ declarations source rest := by
  unfold declarations
  by_cases hrole : node.role = .fileScopedNamespace
  · have hdeclared : (⟨node, below⟩ : Concrete).declared? source =
        some ((⟨node, below⟩ : Concrete).namespaceDeclaration source) := by
      simp only [declared?, hrole]
    rw [members_cons_of_fileScoped hrole, hdeclared]
    simp [Members.all, Forest.labels, labels_openedMembers]
  · rw [members_cons_of_not_fileScoped hrole, ← labels_contribution]
    simp [Members.all, Members.after]

/-- What a using directive declares is named after its target. -/
theorem exists_target_of_usingDeclaration? {d : Declaration}
    (h : c.usingDeclaration? source = some d) :
    ∃ target, (c.namedChildren.find? fun child => usingTargetKinds.contains child.node.kind) =
        some target ∧
      d = Declaration.ofUsing
        ((Text.afterStart? "global::" (target.node.compactText source)).getD
          (target.node.compactText source)) (c.hasKeyword "global") c.node.span := by
  unfold usingDeclaration? at h
  split at h
  · simp at h
  · obtain ⟨target, htarget, hd⟩ := Option.map_eq_some_iff.mp h
    exact ⟨target, htarget, hd.symm⟩

/-- A declaration has the place of its node. -/
theorem span_of_declared? {d : Declaration} (h : c.declared? source = some d) :
    d.span = c.node.span := by
  unfold declared? at h
  cases hrole : c.node.role with
  | fileScopedNamespace | namespaceBlock | typeDeclaration | methodDeclaration
  | otherDeclaration =>
    rw [hrole] at h
    obtain rfl := Option.some.inj h
    rfl
  | usingDirective =>
    rw [hrole] at h
    obtain ⟨target, -, rfl⟩ := exists_target_of_usingDeclaration? h
    rfl
  | preprocessor | ignored =>
    rw [hrole] at h
    simp at h

/-- A declaration of a method belongs to a node of that kind. -/
theorem eq_methodDeclaration_of_declared? {d : Declaration} (h : c.declared? source = some d)
    (hkind : d.kind = .methodDeclaration) :
    c.node.IsMethod ∧ d = c.methodDeclaration source := by
  have hroleOf := c.node.roleOf_role
  unfold declared? at h
  generalize c.node.role = role at hroleOf h
  cases hroleOf with
  | methodDeclaration _ hmethod => exact ⟨hmethod, (Option.some.inj h).symm⟩
  | usingDirective =>
    obtain ⟨target, -, rfl⟩ := exists_target_of_usingDeclaration? h
    simp [Declaration.ofUsing] at hkind
  | fileScopedNamespace | namespaceBlock | typeDeclaration | otherDeclaration =>
    obtain rfl := Option.some.inj h
    cases hkind
  | preprocessor | unnamed | ignored => simp at h

/-- A using directive is declared exactly if it brings a namespace into scope. -/
theorem usingDeclaration?_isSome_iff :
    (c.usingDeclaration? source).isSome = true ↔ c.ImportsNamespace := by
  have hfield : (c.field? "name").isSome = true ↔
      ¬ ∀ d ∈ c.children, d.node.fills "name" = false := by
    simp [field?, List.find?_isSome]
  have hstatic : c.hasKeyword "static" = true ↔
      ¬ ∀ d ∈ c.children, d.node.isKeyword "static" = false := by
    simp [hasKeyword]
  unfold usingDeclaration? ImportsNamespace
  by_cases hskipped : ((c.field? "name").isSome || c.hasKeyword "static") = true
  · rw [if_pos hskipped]
    rw [Bool.or_eq_true, hfield, hstatic] at hskipped
    constructor
    · intro h
      simp at h
    · intro h
      rcases hskipped with hskipped | hskipped
      · exact absurd h.1 hskipped
      · exact absurd h.2.1 hskipped
  · rw [if_neg hskipped, Option.isSome_map, List.find?_isSome]
    rw [Bool.or_eq_true, hfield, hstatic, not_or, not_not, not_not] at hskipped
    constructor
    · intro h
      obtain ⟨d, hd, hkind⟩ := h
      obtain ⟨hd, hnamed⟩ := List.mem_filter.mp hd
      exact ⟨hskipped.1, hskipped.2, d, hd, hnamed, by simpa using hkind⟩
    · intro h
      obtain ⟨-, -, d, hd, hnamed, hkind⟩ := h
      exact ⟨d, List.mem_filter.mpr ⟨hd, hnamed⟩, by simpa using hkind⟩

/-- A node has a declaration exactly if it is a named node that is one. -/
theorem declared?_isSome_iff (source : String) :
    (c.declared? source).isSome = true ↔ c.node.named = true ∧ c.IsDeclaration := by
  unfold declared?
  constructor
  · have hroleOf := c.node.roleOf_role
    intro h
    generalize c.node.role = role at hroleOf h
    cases hroleOf with
    | fileScopedNamespace hnamed hkind => exact ⟨hnamed, Or.inl (Or.inr hkind)⟩
    | namespaceBlock hnamed hkind => exact ⟨hnamed, Or.inl (Or.inl hkind)⟩
    | usingDirective hnamed hkind =>
      have himports := usingDeclaration?_isSome_iff.mp h
      exact ⟨hnamed, Or.inr (Or.inr (Or.inr (Or.inr ⟨hkind, himports⟩)))⟩
    | typeDeclaration hnamed hkind => exact ⟨hnamed, Or.inr (Or.inl hkind)⟩
    | methodDeclaration hnamed hkind => exact ⟨hnamed, Or.inr (Or.inr (Or.inl hkind))⟩
    | otherDeclaration hnamed hkind =>
      exact ⟨hnamed, Or.inr (Or.inr (Or.inr (Or.inl hkind)))⟩
    | preprocessor | unnamed | ignored => simp at h
  · intro h
    obtain ⟨hnamed, hkind⟩ := h
    rcases hkind with hkind | hkind | hkind | hkind | ⟨hkind, himports⟩
    · rcases ConcreteNode.role_of_isNamespace hnamed hkind with hrole | hrole <;> rw [hrole] <;> rfl
    · rw [ConcreteNode.role_of_isType hnamed hkind]
      rfl
    · rw [ConcreteNode.role_of_isMethod hnamed hkind]
      rfl
    · rw [ConcreteNode.role_of_isOtherDeclaration hnamed hkind]
      rfl
    · rw [ConcreteNode.role_of_isUsing hnamed hkind]
      exact usingDeclaration?_isSome_iff.mpr himports

/-- What a member opens is the member itself or one of its children. -/
theorem opened?_eq_some (h : c.opened? = some b) : b = c ∨ b ∈ c.children := by
  unfold opened? at h
  cases hrole : c.node.role with
  | fileScopedNamespace | namespaceBlock =>
    rw [hrole] at h
    obtain rfl := Option.some.inj h
    cases hbody : c.field? "body" with
    | some b => exact Or.inr (List.mem_of_find?_eq_some hbody)
    | none => exact Or.inl rfl
  | typeDeclaration =>
    rw [hrole] at h
    simp only at h
    split at h
    · simp at h
    · rcases Option.or_eq_some_iff.mp h with hbody | ⟨-, hlist⟩
      · exact Or.inr (List.mem_of_find?_eq_some hbody)
      · exact Or.inr (List.mem_of_find?_eq_some hlist)
  | preprocessor =>
    rw [hrole] at h
    exact Or.inl (Option.some.inj h).symm
  | usingDirective | methodDeclaration | otherDeclaration | ignored =>
    rw [hrole] at h
    simp at h

section Opens

variable {p : ConcreteNode → Bool}

/-- The first child with a property is the one that a search for it finds. -/
theorem firstChild_iff_of_find? (h : c.children.find? (p ·.node) = some b) :
    ∃ k, ∀ j d, c.FirstChild p j d ↔ j = k ∧ d = b := by
  obtain ⟨hb, k, hk, hkb, hbefore⟩ := List.find?_eq_some_iff_getElem.mp h
  have hfirst : c.FirstChild p k b := by
    refine ⟨List.getElem?_eq_some_iff.mpr ⟨hk, hkb⟩, hb, ?_⟩
    intro j hj d hd
    obtain ⟨hjlt, rfl⟩ := List.getElem?_eq_some_iff.mp hd
    simpa using hbefore j hj
  refine ⟨k, fun j d => ⟨?_, ?_⟩⟩
  · intro hd
    have hjk : j = k := by
      rcases Nat.lt_trichotomy j k with hlt | heq | hlt
      · have hp := hfirst.2.2 j hlt d hd.1
        rw [hd.2.1] at hp
        exact absurd hp (by decide)
      · exact heq
      · have hp := hd.2.2 k hlt b hfirst.1
        rw [hb] at hp
        exact absurd hp (by decide)
    subst hjk
    exact ⟨rfl, Option.some.inj (hd.1.symm.trans hfirst.1)⟩
  · intro hd
    obtain ⟨rfl, rfl⟩ := hd
    exact hfirst

/-- Without a child with the property there is no first one. -/
theorem not_firstChild (h : ∀ d ∈ c.children, p d.node = false) : ¬ c.FirstChild p k b := by
  intro hb
  have hp := h b (List.mem_of_getElem? hb.1)
  rw [hb.2.1] at hp
  exact absurd hp (by decide)

/-- The form of an enum is that of its kind. -/
theorem typeForm_eq_enumType_iff : c.typeForm = .enumType ↔ c.node.kind = "enum_declaration" := by
  unfold typeForm
  constructor
  · intro h
    split_ifs at h
    simp_all
  · intro h
    simp [h]

/-- What a namespace opens. -/
theorem opens_iff_of_isNamespace (hkind : c.node.IsNamespace) :
    c.Opens via b ↔ (∃ k, via = [k] ∧ c.FirstChild (·.fills "body") k b) ∨
      (∀ d ∈ c.children, d.node.fills "body" = false) ∧ via = [] ∧ b = c := by
  constructor
  · intro h
    cases h with
    | namespaceBody _ hbody => exact Or.inl ⟨_, rfl, hbody⟩
    | namespaceItself _ hnone => exact Or.inr ⟨hnone, rfl, rfl⟩
    | typeBody htype | typeList htype => exact absurd htype hkind.not_isType
    | preprocessor hblock => exact absurd hblock hkind.not_isPreprocessor
  · intro h
    rcases h with ⟨k, rfl, hbody⟩ | ⟨hnone, rfl, rfl⟩
    · exact .namespaceBody hkind hbody
    · exact .namespaceItself hkind hnone

/-- What a type opens. -/
theorem opens_iff_of_isType (hkind : c.node.IsType) :
    c.Opens via b ↔ c.node.kind ≠ "enum_declaration" ∧
      ((∃ k, via = [k] ∧ c.FirstChild (·.fills "body") k b) ∨
        (∀ d ∈ c.children, d.node.fills "body" = false) ∧
          ∃ k, via = [k] ∧ c.FirstChild (·.isNamed "declaration_list") k b) := by
  constructor
  · intro h
    cases h with
    | namespaceBody hspace | namespaceItself hspace => exact absurd hkind hspace.not_isType
    | typeBody _ henum hbody => exact ⟨henum, Or.inl ⟨_, rfl, hbody⟩⟩
    | typeList _ henum hnone hlist => exact ⟨henum, Or.inr ⟨hnone, _, rfl, hlist⟩⟩
    | preprocessor hblock => exact absurd hblock hkind.not_isPreprocessor
  · intro h
    obtain ⟨henum, ⟨k, rfl, hbody⟩ | ⟨hnone, k, rfl, hlist⟩⟩ := h
    · exact .typeBody hkind henum hbody
    · exact .typeList hkind henum hnone hlist

/-- What a preprocessor block opens. -/
theorem opens_iff_of_isPreprocessor (hkind : c.node.IsPreprocessor) :
    c.Opens via b ↔ via = [] ∧ b = c := by
  constructor
  · intro h
    cases h with
    | namespaceBody hspace | namespaceItself hspace => exact absurd hkind hspace.not_isPreprocessor
    | typeBody htype | typeList htype => exact absurd hkind htype.not_isPreprocessor
    | preprocessor => exact ⟨rfl, rfl⟩
  · intro h
    obtain ⟨rfl, rfl⟩ := h
    exact .preprocessor hkind

/-- Only namespaces, types and preprocessor blocks open anything. -/
theorem Opens.kind (h : c.Opens via b) :
    c.node.IsNamespace ∨ c.node.IsType ∨ c.node.IsPreprocessor := by
  cases h with
  | namespaceBody hkind | namespaceItself hkind => exact Or.inl hkind
  | typeBody hkind | typeList hkind => exact Or.inr (Or.inl hkind)
  | preprocessor hkind => exact Or.inr (Or.inr hkind)

/-- One way to the first child with a property, if there is such a child. -/
theorem firstChild_unique (h : c.children.find? (p ·.node) = some b) :
    ∃ via, ∀ other d, (∃ k, other = [k] ∧ c.FirstChild p k d) ↔ other = via ∧ d = b := by
  obtain ⟨k, hk⟩ := firstChild_iff_of_find? h
  refine ⟨[k], fun other d => ⟨?_, ?_⟩⟩
  · intro hfirst
    obtain ⟨j, rfl, hj⟩ := hfirst
    obtain ⟨rfl, rfl⟩ := (hk j d).mp hj
    exact ⟨rfl, rfl⟩
  · intro hfirst
    obtain ⟨rfl, rfl⟩ := hfirst
    exact ⟨k, rfl, (hk k d).mpr ⟨rfl, rfl⟩⟩

/-- One way to the first child with a property or, without such a child, to what takes its
place. -/
theorem firstChild_or_unique {other? : Option Concrete} {instead : List Nat → Concrete → Prop}
    (hinstead : ∀ b, other? = some b → ∃ via, ∀ other d, instead other d ↔ other = via ∧ d = b)
    (h : (c.children.find? (p ·.node)).or other? = some b) :
    ∃ via, ∀ other d, (∃ k, other = [k] ∧ c.FirstChild p k d) ∨
      (∀ d ∈ c.children, p d.node = false) ∧ instead other d ↔ other = via ∧ d = b := by
  cases hfound : c.children.find? (p ·.node) with
  | some first =>
    rw [hfound, Option.some_or] at h
    obtain rfl := Option.some.inj h
    obtain ⟨via, hvia⟩ := firstChild_unique hfound
    obtain ⟨k, -, hk⟩ := (hvia via first).mpr ⟨rfl, rfl⟩
    have hsome : ¬ ∀ d ∈ c.children, p d.node = false := fun hnone => not_firstChild hnone hk
    exact ⟨via, fun other d => by rw [hvia]; simp only [hsome, false_and, or_false]⟩
  | none =>
    rw [hfound, Option.none_or] at h
    obtain ⟨via, hvia⟩ := hinstead b h
    have hnone : ∀ d ∈ c.children, p d.node = false := by
      simpa using hfound
    have hfirst (other : List Nat) (d : Concrete) :
        ¬ ∃ k, other = [k] ∧ c.FirstChild p k d := by
      intro hfirst
      obtain ⟨k, -, hk⟩ := hfirst
      exact not_firstChild hnone hk
    refine ⟨via, fun other d => ?_⟩
    rw [← hvia]
    exact ⟨fun hor => (hor.resolve_left (hfirst other d)).2, fun h => Or.inr ⟨hnone, h⟩⟩

/-- There is one way to the node that a namespace opens. -/
theorem opens_unique_of_isNamespace (hkind : c.node.IsNamespace) :
    ∃ via, ∀ other d, c.Opens other d ↔ other = via ∧ d = (c.field? "body").getD c := by
  simp only [opens_iff_of_isNamespace hkind]
  have hself : ∀ b, some c = some b →
      ∃ via, ∀ (other : List Nat) d, other = [] ∧ d = c ↔ other = via ∧ d = b := by
    intro b hb
    obtain rfl := Option.some.inj hb
    exact ⟨[], fun other d => Iff.rfl⟩
  have hbody : (c.field? "body").or (some c) = some ((c.field? "body").getD c) := by
    cases c.field? "body" <;> rfl
  exact firstChild_or_unique hself hbody

/-- There is one way to the node that a type opens, if it opens one. -/
theorem opens_unique_of_isType (hkind : c.node.IsType)
    (henum : c.node.kind ≠ "enum_declaration")
    (hopened : (c.field? "body").or (c.namedChild? "declaration_list") = some b) :
    ∃ via, ∀ other d, c.Opens other d ↔ other = via ∧ d = b := by
  simp only [opens_iff_of_isType hkind, henum, ne_eq, not_false_eq_true, true_and]
  exact firstChild_or_unique (fun _ hlist => firstChild_unique hlist) hopened

/-- There is one way to the node that a member opens. -/
theorem opens_unique (h : c.opened? = some b) :
    ∃ via, ∀ other d, c.Opens other d ↔ other = via ∧ d = b := by
  have hroleOf := c.node.roleOf_role
  unfold opened? at h
  generalize c.node.role = role at hroleOf h
  cases hroleOf with
  | fileScopedNamespace _ hkind =>
    obtain rfl := Option.some.inj h
    exact opens_unique_of_isNamespace (Or.inr hkind)
  | namespaceBlock _ hkind =>
    obtain rfl := Option.some.inj h
    exact opens_unique_of_isNamespace (Or.inl hkind)
  | typeDeclaration _ hkind =>
    simp only at h
    split at h
    · simp at h
    · rename_i henum
      exact opens_unique_of_isType hkind (mt typeForm_eq_enumType_iff.mpr henum) h
  | preprocessor _ hkind =>
    obtain rfl := Option.some.inj h
    exact ⟨[], fun other d => opens_iff_of_isPreprocessor hkind⟩
  | usingDirective | methodDeclaration | otherDeclaration | unnamed | ignored => simp at h

/-- Any other member opens nothing. -/
theorem not_opens (hnamed : c.node.named = true) (h : c.opened? = none) : ¬ c.Opens via b := by
  intro hopens
  unfold opened? at h
  rcases hopens.kind with hkind | hkind | hkind
  · rcases ConcreteNode.role_of_isNamespace hnamed hkind with hrole | hrole <;> simp [hrole] at h
  · rw [ConcreteNode.role_of_isType hnamed hkind] at h
    obtain ⟨henum, hbody⟩ := (opens_iff_of_isType hkind).mp hopens
    simp only [if_neg (mt typeForm_eq_enumType_iff.mp henum), Option.or_eq_none_iff] at h
    rcases hbody with ⟨k, -, hbody⟩ | ⟨-, k, -, hlist⟩
    · exact not_firstChild (by simpa [field?] using h.1) hbody
    · exact not_firstChild (by simpa [namedChild?] using h.2) hlist
  · simp [ConcreteNode.role_of_isPreprocessor hnamed hkind] at h

end Opens

end Concrete

end StubGen

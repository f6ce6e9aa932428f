import StubGen.Proofs.Concrete.Members
import StubGen.Proofs.Concrete.Tokens
import StubGen.Proofs.Text.Dotted
import StubGen.Proofs.Tree.Shape

/-!
# The names that tokens spell

Every declaration, and every application of an attribute, takes its name from one node. If these
nodes are made up of tokens and blanks, names are what the tokens spell. A comment between the
tokens of a name is one of them, so a name goes without its comments only if there are none.
-/

namespace StubGen.Concrete

/-- The node from which the name of a declaration, or of the application of an attribute, is
read. -/
def nameNode? (c : Concrete) : Option Concrete :=
  match c.node.role with
  | .usingDirective => c.namedChildren.find? fun child => usingTargetKinds.contains child.node.kind
  | .fileScopedNamespace | .namespaceBlock | .typeDeclaration | .methodDeclaration
  | .otherDeclaration => c.field? "name"
  | .preprocessor => none
  | .ignored =>
    if c.node.isNamed "attribute" then (c.field? "name").or c.namedChildren.head? else none

/-- The tokens of that node. -/
def nameTokens (c : Concrete) : List ConcreteNode := (c.nameNode?.map (·.tokens)).getD []

/-- The name that is spelled by tokens. The target of a using directive goes without the mark of
the global namespace. -/
def nameOf (source : String) (c : Concrete) (tokens : List ConcreteNode) : String :=
  if c.node.role = .usingDirective then
    (Text.afterStart? "global::" (spelled source tokens)).getD (spelled source tokens)
  else spelled source tokens

/-- The name that all its tokens spell. -/
def spelledName (source : String) (c : Concrete) : String := c.nameOf source c.nameTokens

/-- The name that its tokens spell without the comments among them. -/
def plainName (source : String) (c : Concrete) : String :=
  c.nameOf source (c.nameTokens.filter (!·.isComment))

/-- The applications of attributes that are read for a declaration. -/
def appliedAttributes (c : Concrete) : List Concrete :=
  match c.node.role with
  | .typeDeclaration | .methodDeclaration =>
    (c.children.filter (·.node.isNamed "attribute_list")).flatMap fun list =>
      list.children.filter (·.node.isNamed "attribute")
  | .fileScopedNamespace | .namespaceBlock | .usingDirective | .otherDeclaration | .preprocessor
  | .ignored => []

/-- The nodes from which names are read, here and below, are made up of tokens and blanks. -/
def NamesTokenized (source : String) (f : Forest ConcreteNode) : Prop :=
  ∀ t ∈ f.subtrees, ∀ e ∈ (⟨t.1, t.2⟩ : Concrete).nameNode?, e.IsTokenized source

instance (source : String) (f : Forest ConcreteNode) : Decidable (NamesTokenized source f) :=
  inferInstanceAs (Decidable (∀ t ∈ f.subtrees, ∀ e ∈ (⟨t.1, t.2⟩ : Concrete).nameNode?,
    e.IsTokenized source))

variable {c d : Concrete} {source : String} {f : Forest ConcreteNode}

/-- The trees of a sequence are among those of the sequence and below. -/
theorem mem_subtrees_of_mem_trees {t : ConcreteNode × Forest ConcreteNode} (ht : t ∈ f.trees) :
    t ∈ f.subtrees := by
  induction f with
  | nil => simp [Forest.trees] at ht
  | cons node below rest _ ih =>
    rw [Forest.trees, List.mem_cons] at ht
    rw [Forest.subtrees, List.cons_append, List.mem_cons, List.mem_append]
    exact ht.imp_right fun hrest => .inr (ih hrest)

/-- Where the names are made up of tokens, so are that of a child and those below it. -/
theorem NamesTokenized.child (h : NamesTokenized source c.below) (hd : d ∈ c.children) :
    (∀ e ∈ d.nameNode?, e.IsTokenized source) ∧ NamesTokenized source d.below := by
  obtain ⟨t, ht, rfl⟩ := List.mem_map.mp hd
  exact ⟨h t (mem_subtrees_of_mem_trees ht),
    fun u hu => h u (Forest.subtrees_subset_of_mem_trees ht hu)⟩

/-- So are those at a position and below it. -/
theorem NamesTokenized.at? (h : NamesTokenized source c.below) {position : List Nat}
    (hposition : position ≠ []) (hd : c.at? position = some d) :
    (∀ e ∈ d.nameNode?, e.IsTokenized source) ∧ NamesTokenized source d.below := by
  induction position generalizing c with
  | nil => exact absurd rfl hposition
  | cons k position ih =>
    obtain ⟨e, he, hbelow⟩ := Option.bind_eq_some_iff.mp hd
    have hchild := h.child (List.mem_of_getElem? he)
    by_cases hnil : position = []
    · subst hnil
      obtain rfl := Option.some.inj hbelow
      exact hchild
    · exact ih hchild.2 hnil hbelow

/-- The text of the name node without blanks is what the tokens spell. -/
theorem getD_compactText_eq (h : ∀ e ∈ c.nameNode?, e.IsTokenized source) :
    (c.nameNode?.map (·.node.compactText source)).getD "" = spelled source c.nameTokens := by
  unfold nameTokens
  cases hname : c.nameNode? with
  | none => rfl
  | some e => exact (h e hname).compactText_eq

/-- A declaration has the name that is spelled by its tokens. -/
theorem name_of_declared? {declared : Declaration}
    (hname : ∀ e ∈ c.nameNode?, e.IsTokenized source)
    (h : c.declared? source = some declared) : declared.name = c.spelledName source := by
  have htext := getD_compactText_eq hname
  unfold declared? at h
  unfold spelledName nameOf
  rw [← htext]
  unfold nameNode?
  cases hrole : c.node.role with
  | fileScopedNamespace | namespaceBlock | typeDeclaration | methodDeclaration
  | otherDeclaration =>
    rw [hrole] at h
    obtain rfl := Option.some.inj h
    rfl
  | usingDirective =>
    rw [hrole] at h
    obtain ⟨target, htarget, rfl⟩ := exists_target_of_usingDeclaration? h
    rw [if_pos rfl]
    simp only [htarget, Option.map_some, Option.getD_some, Declaration.ofUsing]
  | preprocessor | ignored =>
    rw [hrole] at h
    simp at h

/-- An attribute has the name that is spelled by its tokens. -/
theorem spelledName_of_isAttribute (hname : ∀ e ∈ c.nameNode?, e.IsTokenized source)
    (h : c.node.isNamed "attribute" = true) :
    (((c.field? "name").or c.namedChildren.head?).map (·.node.compactText source)).getD "" =
      c.spelledName source := by
  have hrole : c.node.role = .ignored := ConcreteNode.role_of_isNamed_entry (by simp) h
  rw [spelledName, nameOf, if_neg (by rw [hrole]; decide), ← getD_compactText_eq hname]
  simp only [nameNode?, hrole, h, if_true]

/-- The attributes of a declaration have the names that are spelled by their tokens. -/
theorem attributes_of_declared? {declared : Declaration}
    (hbelow : NamesTokenized source c.below) (h : c.declared? source = some declared) :
    declared.attributes.map (·.name) = c.appliedAttributes.map (·.spelledName source) := by
  have hread : (c.attributes source).map (·.name) =
      ((c.children.filter (·.node.isNamed "attribute_list")).flatMap fun list =>
        list.children.filter (·.node.isNamed "attribute")).map (·.spelledName source) := by
    rw [attributes, List.map_flatMap, List.map_flatMap]
    refine List.flatMap_congr fun list hlist => ?_
    rw [List.map_map]
    refine List.map_congr_left fun applied happlied => ?_
    obtain ⟨happlied, hkind⟩ := List.mem_filter.mp happlied
    have hlistBelow := (hbelow.child (List.mem_of_mem_filter hlist)).2
    exact spelledName_of_isAttribute (hlistBelow.child happlied).1 hkind
  unfold declared? at h
  unfold appliedAttributes
  cases hrole : c.node.role with
  | typeDeclaration | methodDeclaration =>
    rw [hrole] at h
    obtain rfl := Option.some.inj h
    exact hread
  | fileScopedNamespace | namespaceBlock | otherDeclaration =>
    rw [hrole] at h
    obtain rfl := Option.some.inj h
    rfl
  | usingDirective =>
    rw [hrole] at h
    obtain ⟨target, -, rfl⟩ := exists_target_of_usingDeclaration? h
    rfl
  | preprocessor | ignored =>
    rw [hrole] at h
    simp at h

/-- The mark of the global namespace has no slash. -/
theorem slashes_nameOf (source : String) (c : Concrete) (tokens : List ConcreteNode) :
    Text.slashes (c.nameOf source tokens) = Text.slashes (spelled source tokens) := by
  unfold nameOf
  split
  · cases hafter : Text.afterStart? "global::" (spelled source tokens) with
    | none => rfl
    | some rest =>
      rw [← Text.afterStart?_eq_some.mp hafter, Text.slashes_append, Option.getD_some]
      exact (Nat.zero_add _).symm
  · rfl

/-- A name goes without its comments exactly if there are none among its tokens. -/
theorem plainName_eq_spelledName_iff (hname : ∀ e ∈ c.nameNode?, e.IsTokenized source) :
    c.plainName source = c.spelledName source ↔
      ∀ token ∈ c.nameTokens, token.isComment = false := by
  constructor
  · intro h token htoken
    by_contra hcomment
    have hslash : '/' ∈ (token.text source).toList := by
      unfold nameTokens at htoken
      cases hnode : c.nameNode? with
      | none => simp [hnode] at htoken
      | some e =>
        rw [hnode] at htoken
        exact (hname e hnode).comments token htoken (by simpa using hcomment)
    -- The slash of the comment is missing in the name without comments.
    have hslashes := congrArg Text.slashes h
    rw [plainName, spelledName, slashes_nameOf, slashes_nameOf,
      slashes_spelled_filter (!·.isComment) c.nameTokens, Nat.left_eq_add] at hslashes
    have hpos : 0 < Text.slashes
        (spelled source (c.nameTokens.filter fun token => !!token.isComment)) :=
      slashes_spelled_pos (List.mem_filter.mpr ⟨htoken, by simpa using hcomment⟩) hslash
    omega
  · intro h
    rw [plainName, spelledName,
      List.filter_eq_self.mpr fun token htoken => by simp [h token htoken]]

end StubGen.Concrete

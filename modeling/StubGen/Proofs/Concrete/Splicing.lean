import StubGen.Proofs.Concrete.Sequence

/-!
# Blocks replaced by what they hold

A preprocessor block among the members of a file, of a namespace body or of a type body can
be replaced by the nodes it holds, everywhere in a concrete tree and however deep blocks
are nested. What is declared by the members that hold the blocks is read from the same
nodes before and after: only the sequences of members themselves change.

A body that is at the same time read as a list of attributes or of type parameters is left
as it is, so that nothing but members is rearranged.
-/

namespace StubGen

/-- The node is read as a list of attributes or of type parameters. -/
def ConcreteNode.isList (node : ConcreteNode) : Bool :=
  node.isNamed "attribute_list" || node.isNamed "type_parameter_list" ||
    node.fills "type_parameters"

namespace Concrete

mutual

/-- A sequence of nodes with the blocks in the bodies below it replaced by what they hold,
and those of the sequence itself if it is that of a body. -/
def spliced (inBody : Bool) : Forest ConcreteNode → Forest ConcreteNode
  | .nil => .nil
  | .cons node below rest =>
    match node.role with
    | .preprocessor =>
      if inBody then spliced true below ++ spliced true rest
      else .cons node (spliced false below) (spliced false rest)
    | .fileScopedNamespace | .namespaceBlock =>
      .cons node ((splicedBody (·.fills "body") below).getD (spliced false below))
        (spliced inBody rest)
    | .typeDeclaration =>
      .cons node
        (((splicedBody (·.fills "body") below).or
          (splicedBody (·.isNamed "declaration_list") below)).getD below)
        (spliced inBody rest)
    | .usingDirective | .methodDeclaration | .otherDeclaration | .ignored =>
      .cons node below (spliced inBody rest)

/-- The children of a member with the first one that is taken for its body spliced, if there
is one. -/
def splicedBody (isBody : ConcreteNode → Bool) :
    Forest ConcreteNode → Option (Forest ConcreteNode)
  | .nil => none
  | .cons node below rest =>
    if isBody node then some (.cons node (spliced (!node.isList) below) rest)
    else (splicedBody isBody rest).map (.cons node below)

end

/-- A file with the blocks among its members, and among those of its namespaces and types,
replaced by what they hold. -/
def withoutBlocks (c : Concrete) : Concrete := { c with below := spliced true c.below }

/-- A member that stays, with the sequences below it spliced. -/
def splicedInside (c : Concrete) : Concrete where
  node := c.node
  below :=
    match c.node.role with
    | .preprocessor => spliced false c.below
    | .fileScopedNamespace | .namespaceBlock =>
      (splicedBody (·.fills "body") c.below).getD (spliced false c.below)
    | .typeDeclaration =>
      ((splicedBody (·.fills "body") c.below).or
        (splicedBody (·.isNamed "declaration_list") c.below)).getD c.below
    | .usingDirective | .methodDeclaration | .otherDeclaration | .ignored => c.below

/-- A sequence of nodes that is searched for members. -/
structure Searched where
  /-- Whether it is that of a body, so that its blocks are replaced. -/
  inBody : Bool
  nodes : Forest ConcreteNode

/-- The nodes of a body. -/
def Searched.ofBody (b : Concrete) : Searched where
  inBody := !b.node.isList
  nodes := b.below

/-- The sequence that is searched for the members of a member, if there is one. -/
def searched? (c : Concrete) : Option Searched :=
  match c.node.role with
  | .fileScopedNamespace | .namespaceBlock =>
    some (((c.field? "body").map Searched.ofBody).getD { inBody := false, nodes := c.below })
  | .typeDeclaration =>
    if c.typeForm = .enumType then none
    else ((c.field? "body").or (c.namedChild? "declaration_list")).map Searched.ofBody
  | .preprocessor => some { inBody := false, nodes := c.below }
  | .usingDirective | .methodDeclaration | .otherDeclaration | .ignored => none

variable {c c' : Concrete} {source : String} {node : ConcreteNode}
  {f below rest : Forest ConcreteNode} {inBody : Bool} {isBody : ConcreteNode → Bool}

/-- A block in a body is replaced. -/
theorem spliced_cons_block (hrole : node.role = .preprocessor) (below rest : Forest ConcreteNode) :
    spliced true (.cons node below rest) = spliced true below ++ spliced true rest := by
  simp [spliced, hrole]

/-- Any other node stays. -/
theorem spliced_cons (h : inBody = false ∨ node.role ≠ .preprocessor)
    (below rest : Forest ConcreteNode) :
    spliced inBody (.cons node below rest) =
      .cons node (⟨node, below⟩ : Concrete).splicedInside.below (spliced inBody rest) := by
  unfold splicedInside
  rw [spliced]
  cases hrole : node.role with
  | preprocessor =>
    obtain rfl := h.resolve_right fun hne => hne hrole
    rfl
  | fileScopedNamespace | namespaceBlock | usingDirective | typeDeclaration | methodDeclaration
  | otherDeclaration | ignored => rfl

/-- No block is left in a spliced body. -/
theorem role_of_mem_spliced {t : ConcreteNode × Forest ConcreteNode}
    (ht : t ∈ (spliced true f).trees) : t.1.role ≠ .preprocessor := by
  induction f with
  | nil => simp [spliced, Forest.trees] at ht
  | cons node below rest ihBelow ihRest =>
    by_cases hrole : node.role = .preprocessor
    · rw [spliced_cons_block hrole, Forest.trees_append, List.mem_append] at ht
      rcases ht with ht | ht
      · exact ihBelow ht
      · exact ihRest ht
    · rw [spliced_cons (Or.inr hrole), Forest.trees, List.mem_cons] at ht
      rcases ht with rfl | ht
      · exact hrole
      · exact ihRest ht

section Readings

/-- The nodes of the children stay where no block is replaced. -/
theorem nodes_spliced_false (f : Forest ConcreteNode) :
    (spliced false f).trees.map (·.1) = f.trees.map (·.1) := by
  induction f with
  | nil => rfl
  | cons node below rest _ ih =>
    rw [spliced_cons (Or.inl rfl), Forest.trees, Forest.trees, List.map_cons, List.map_cons, ih]

/-- Children that are not searched for members stay as they are. -/
theorem filter_spliced_false (f : Forest ConcreteNode) {p : ConcreteNode → Bool}
    (hp : ∀ node, p node = true → node.role = .ignored) :
    (spliced false f).trees.filter (p ·.1) = f.trees.filter (p ·.1) := by
  induction f with
  | nil => rfl
  | cons node below rest _ ih =>
    rw [spliced_cons (Or.inl rfl), Forest.trees, Forest.trees, List.filter_cons, List.filter_cons,
      ih]
    by_cases hnode : p node = true
    · simp [hnode, splicedInside, hp node hnode]
    · simp [hnode]

/-- The second sequence is the first one with the sequence below one node spliced. -/
structure SplicesAt (f f' : Forest ConcreteNode) (before : List (ConcreteNode × Forest ConcreteNode))
    (b : ConcreteNode × Forest ConcreteNode) (after : List (ConcreteNode × Forest ConcreteNode)) :
    Prop where
  trees : f.trees = before ++ b :: after
  trees' : f'.trees = before ++ (b.1, spliced (!b.1.isList) b.2) :: after

/-- Without a body there is nothing to splice. -/
theorem splicedBody_eq_none (h : splicedBody isBody f = none) :
    ∀ t ∈ f.trees, isBody t.1 = false := by
  induction f with
  | nil => simp [Forest.trees]
  | cons node below rest _ ih =>
    rw [splicedBody] at h
    split at h
    · simp at h
    · rename_i hbody
      rw [Forest.trees, List.forall_mem_cons]
      exact ⟨by simpa using hbody, ih (Option.map_eq_none_iff.mp h)⟩

/-- The first child taken for a body is spliced, and no other child changes. -/
theorem splicedBody_eq_some {f' : Forest ConcreteNode} (h : splicedBody isBody f = some f') :
    ∃ before b after, SplicesAt f f' before b after ∧ isBody b.1 = true ∧
      ∀ t ∈ before, isBody t.1 = false := by
  induction f generalizing f' with
  | nil => simp [splicedBody] at h
  | cons node below rest _ ih =>
    rw [splicedBody] at h
    split at h
    · rename_i hbody
      obtain rfl := Option.some.inj h
      exact ⟨[], (node, below), rest.trees, ⟨rfl, rfl⟩, hbody, by simp⟩
    · rename_i hbody
      obtain ⟨rest', hrest, rfl⟩ := Option.map_eq_some_iff.mp h
      obtain ⟨before, b, after, hat, hb, hbefore⟩ := ih hrest
      refine ⟨(node, below) :: before, b, after, ⟨?_, ?_⟩, hb, ?_⟩
      · rw [Forest.trees, hat.trees, List.cons_append]
      · rw [Forest.trees, hat.trees', List.cons_append]
      · rw [List.forall_mem_cons]
        exact ⟨by simpa using hbody, hbefore⟩

/-- The children of a node, without what is below them. -/
def nodes (c : Concrete) : List ConcreteNode := c.below.trees.map (·.1)

/-- A search among the children looks at their nodes. -/
theorem map_node_find? (c : Concrete) (p : ConcreteNode → Bool) :
    (c.children.find? (p ·.node)).map (·.node) = c.nodes.find? p := by
  rw [children, nodes, List.find?_map, List.find?_map, Option.map_map]
  rfl

/-- Whether a search succeeds is a matter of the nodes. -/
theorem find?_eq_none_congr (h : c'.nodes = c.nodes) {p : ConcreteNode → Bool}
    (hnone : c.children.find? (p ·.node) = none) : c'.children.find? (p ·.node) = none := by
  rw [← Option.map_eq_none_iff, map_node_find?] at hnone ⊢
  rw [h, hnone]

/-- The text of a field is a matter of the nodes. -/
theorem fieldText_congr (h : c'.nodes = c.nodes) (source name : String) :
    c'.fieldText source name = c.fieldText source name := by
  have htext (d : Concrete) : d.fieldText source name =
      ((d.nodes.find? (·.fills name)).map (·.compactText source)).getD "" := by
    rw [← map_node_find?, Option.map_map]
    rfl
  rw [htext, htext, h]

/-- Whether there is a keyword is a matter of the nodes. -/
theorem hasKeyword_congr (h : c'.nodes = c.nodes) (keyword : String) :
    c'.hasKeyword keyword = c.hasKeyword keyword := by
  have hany (d : Concrete) : d.hasKeyword keyword = d.nodes.any (·.isKeyword keyword) := by
    rw [hasKeyword, children, nodes, List.any_map, List.any_map]
    rfl
  rw [hany, hany, h]

/-- The modifiers are a matter of the nodes. -/
theorem modifiers_congr (h : c'.nodes = c.nodes) (source : String) :
    c'.modifiers source = c.modifiers source := by
  have htokens (d : Concrete) : (d.children.filter (·.node.isNamed "modifier")).map (·.node) =
      d.nodes.filter (·.isNamed "modifier") := by
    rw [children, nodes, List.filter_map, List.filter_map, List.map_map]
    rfl
  simp only [modifiers, htokens, h]

/-- The form of a type is a matter of its own node and those of its children. -/
theorem typeForm_congr (hnode : c'.node = c.node) (h : c'.nodes = c.nodes) :
    c'.typeForm = c.typeForm := by
  rw [typeForm, typeForm, hnode, hasKeyword_congr h]

/-- The entries of the lists among the children of a node. -/
def listed (c : Concrete) (p q : ConcreteNode → Bool) : List (List Concrete) :=
  (c.children.filter (p ·.node)).map fun list => list.children.filter (q ·.node)

/-- The attributes are the entries of the attribute lists. -/
theorem attributes_congr
    (h : c'.listed (·.isNamed "attribute_list") (·.isNamed "attribute") =
      c.listed (·.isNamed "attribute_list") (·.isNamed "attribute")) (source : String) :
    c'.attributes source = c.attributes source := by
  have hlisted (d : Concrete) : d.attributes source =
      (d.listed (·.isNamed "attribute_list") (·.isNamed "attribute")).flatMap fun entries =>
        entries.map fun applied =>
          { name := (((applied.field? "name").or applied.namedChildren.head?).map
              (·.node.compactText source)).getD ""
            span := applied.node.span } := by
    rw [listed, List.flatMap_map]
    rfl
  rw [hlisted, hlisted, h]

/-- The type parameters are the entries of the first list of type parameters. -/
theorem typeParameters_congr
    (hfield : c'.listed (·.fills "type_parameters") (·.isNamed "type_parameter") =
      c.listed (·.fills "type_parameters") (·.isNamed "type_parameter"))
    (hlist : c'.listed (·.isNamed "type_parameter_list") (·.isNamed "type_parameter") =
      c.listed (·.isNamed "type_parameter_list") (·.isNamed "type_parameter")) (source : String) :
    c'.typeParameters source = c.typeParameters source := by
  have hhead (d : Concrete) (p : ConcreteNode → Bool) :
      (d.children.find? (p ·.node)).map (fun list =>
        list.children.filter (·.node.isNamed "type_parameter")) =
      (d.listed p (·.isNamed "type_parameter")).head? := by
    rw [listed, List.head?_map, List.head?_filter]
  have hlisted (d : Concrete) : d.typeParameters source =
      ((((d.listed (·.fills "type_parameters") (·.isNamed "type_parameter")).head?.or
        (d.listed (·.isNamed "type_parameter_list") (·.isNamed "type_parameter")).head?).getD
          []).map fun parameter =>
        ((parameter.field? "name").getD parameter).node.compactText source) := by
    rw [← hhead, ← hhead, ← Option.map_or]
    unfold typeParameters field? namedChild?
    cases (d.children.find? (·.node.fills "type_parameters")).or
      (d.children.find? (·.node.isNamed "type_parameter_list")) with
    | none => rfl
    | some list =>
      refine List.map_congr_left fun parameter _ => ?_
      cases parameter.children.find? (·.node.fills "name") <;> rfl
  rw [hlisted, hlisted, hfield, hlist]

section SplicesAt

variable {before after : List (ConcreteNode × Forest ConcreteNode)}
  {b : ConcreteNode × Forest ConcreteNode}

/-- The children have the same nodes. -/
theorem SplicesAt.nodes_eq (h : SplicesAt c.below c'.below before b after) :
    c'.nodes = c.nodes := by
  rw [nodes, nodes, h.trees, h.trees']
  simp

/-- The lists among the children have the same entries, for a body that is spliced is no
list. -/
theorem SplicesAt.listed_eq (h : SplicesAt c.below c'.below before b after)
    {p q : ConcreteNode → Bool} (hp : ∀ node, p node = true → node.isList = true)
    (hq : ∀ node, q node = true → node.role = .ignored) : c'.listed p q = c.listed p q := by
  have hentries (f : Forest ConcreteNode) (node : ConcreteNode) :
      (⟨node, f⟩ : Concrete).children.filter (q ·.node) =
        (f.trees.filter (q ·.1)).map fun t => ⟨t.1, t.2⟩ := by
    rw [children, List.filter_map]
    rfl
  unfold listed
  rw [children, children, h.trees, h.trees']
  simp only [List.map_append, List.map_cons, List.filter_append, List.filter_cons]
  by_cases hb : p b.1 = true
  · simp only [hp b.1 hb, hb, Bool.not_true, if_true, List.map_cons, hentries,
      filter_spliced_false _ hq]
  · simp only [hb, Bool.false_eq_true, if_false]

/-- The first child taken for a body, before and after. -/
theorem SplicesAt.find?_eq (h : SplicesAt c.below c'.below before b after)
    (hb : isBody b.1 = true) (hbefore : ∀ t ∈ before, isBody t.1 = false) :
    c.children.find? (isBody ·.node) = some ⟨b.1, b.2⟩ ∧
      c'.children.find? (isBody ·.node) = some ⟨b.1, spliced (!b.1.isList) b.2⟩ := by
  have hnone : (before.map fun t => (⟨t.1, t.2⟩ : Concrete)).find? (isBody ·.node) = none := by
    simpa using fun node f ht => hbefore (node, f) ht
  rw [children, children, h.trees, h.trees']
  simp [hnone, hb]

end SplicesAt

/-- A type stays as it is, having no body, or its body is spliced. -/
theorem splicedInside_of_type (hrole : c.node.role = .typeDeclaration) :
    c.splicedInside = c ∨ ∃ before b after,
      SplicesAt c.below c.splicedInside.below before b after := by
  unfold splicedInside
  rw [hrole]
  cases hbody : splicedBody (·.fills "body") c.below with
  | some f' =>
    obtain ⟨before, b, after, hat, -⟩ := splicedBody_eq_some hbody
    exact Or.inr ⟨before, b, after, hat⟩
  | none =>
    cases hlist : splicedBody (·.isNamed "declaration_list") c.below with
    | some f' =>
      obtain ⟨before, b, after, hat, -⟩ := splicedBody_eq_some hlist
      exact Or.inr ⟨before, b, after, hat⟩
    | none => exact Or.inl rfl

/-- A member keeps the nodes of its children. -/
theorem nodes_splicedInside (c : Concrete) : c.splicedInside.nodes = c.nodes := by
  cases hrole : c.node.role with
  | preprocessor =>
    simp only [nodes, splicedInside, hrole, nodes_spliced_false]
  | fileScopedNamespace | namespaceBlock =>
    cases hbody : splicedBody (·.fills "body") c.below with
    | some f' =>
      obtain ⟨before, b, after, hat, -⟩ := splicedBody_eq_some hbody
      have hbelow : c.splicedInside.below = f' := by simp [splicedInside, hrole, hbody]
      exact SplicesAt.nodes_eq (hbelow ▸ hat)
    | none => simp [nodes, splicedInside, hrole, hbody, nodes_spliced_false]
  | typeDeclaration =>
    rcases splicedInside_of_type hrole with heq | ⟨before, b, after, hat⟩
    · rw [heq]
    · exact hat.nodes_eq
  | usingDirective | methodDeclaration | otherDeclaration | ignored =>
    simp only [nodes, splicedInside, hrole]

/-- A member declares the same after its sequences are spliced. -/
theorem declared?_splicedInside (source : String) (c : Concrete) :
    c.splicedInside.declared? source = c.declared? source := by
  have hnodes := nodes_splicedInside c
  have hnode : c.splicedInside.node = c.node := rfl
  unfold declared?
  rw [hnode]
  cases hrole : c.node.role with
  | fileScopedNamespace | namespaceBlock =>
    simp only [namespaceDeclaration, hnode, fieldText_congr hnodes]
  | typeDeclaration =>
    rcases splicedInside_of_type hrole with heq | ⟨before, b, after, hat⟩
    · rw [heq]
    · have hlisted (p : ConcreteNode → Bool) (hp : ∀ node, p node = true → node.isList = true)
          (kind : String) (hkind : kind ∈ ["attribute", "type_parameter"]) :
          c.splicedInside.listed p (·.isNamed kind) = c.listed p (·.isNamed kind) :=
        hat.listed_eq hp fun _ => ConcreteNode.role_of_isNamed_entry hkind
      have hattributes := attributes_congr
        (hlisted _ (fun node h => by simp [ConcreteNode.isList, h]) _ (by simp)) source
      have hparameters := typeParameters_congr
        (hlisted _ (fun node h => by simp [ConcreteNode.isList, h]) _ (by simp))
        (hlisted _ (fun node h => by simp [ConcreteNode.isList, h]) _ (by simp)) source
      simp only [typeDeclaration, hnode, fieldText_congr hnodes, modifiers_congr hnodes,
        typeForm_congr hnode hnodes, hattributes, hparameters]
  | usingDirective | methodDeclaration | otherDeclaration =>
    simp only [splicedInside, hrole]
  | preprocessor | ignored => rfl

end Readings

section Searched

/-- What a member opens is the sequence that is searched. -/
theorem map_below_opened? (c : Concrete) : c.opened?.map (·.below) = c.searched?.map (·.nodes) := by
  unfold opened? searched?
  cases c.node.role with
  | fileScopedNamespace | namespaceBlock =>
    cases c.field? "body" <;> rfl
  | typeDeclaration =>
    simp only
    split
    · rfl
    · rw [Option.map_map]
      rfl
  | preprocessor | usingDirective | methodDeclaration | otherDeclaration | ignored => rfl

/-- Where there is nothing to splice no child is taken for a body. -/
theorem find?_eq_none (h : splicedBody isBody c.below = none) :
    c.children.find? (isBody ·.node) = none := by
  rw [children, List.find?_map, Option.map_eq_none_iff, List.find?_eq_none]
  intro t ht
  simpa using splicedBody_eq_none h t ht

/-- What is spliced is the body. -/
theorem map_below_find? {f' : Forest ConcreteNode} (h : splicedBody isBody c.below = some f')
    (hbelow : c'.below = f') :
    ∃ b, c.children.find? (isBody ·.node) = some b ∧
      c'.children.find? (isBody ·.node) = some ⟨b.node, spliced (!b.node.isList) b.below⟩ := by
  obtain ⟨before, b, after, hat, hb, hbefore⟩ := splicedBody_eq_some h
  rw [← hbelow] at hat
  exact ⟨⟨b.1, b.2⟩, hat.find?_eq hb hbefore⟩

/-- After splicing, the sequence that is searched is the spliced one. -/
theorem map_below_opened?_splicedInside (c : Concrete) :
    c.splicedInside.opened?.map (·.below) =
      c.searched?.map fun s => spliced s.inBody s.nodes := by
  have hnodes := nodes_splicedInside c
  have hnode : c.splicedInside.node = c.node := rfl
  unfold opened? searched?
  rw [hnode]
  cases hrole : c.node.role with
  | fileScopedNamespace | namespaceBlock =>
    cases hbody : splicedBody (·.fills "body") c.below with
    | some f' =>
      obtain ⟨b, hb, hb'⟩ := map_below_find? hbody
        (show c.splicedInside.below = f' by simp [splicedInside, hrole, hbody])
      simp only [field?, hb, hb']
      rfl
    | none =>
      have hnone := find?_eq_none hbody
      simp only [field?, hnone, find?_eq_none_congr hnodes hnone]
      simp [splicedInside, hrole, hbody]
  | typeDeclaration =>
    simp only [typeForm_congr hnode hnodes]
    split
    · rfl
    · cases hbody : splicedBody (·.fills "body") c.below with
      | some f' =>
        obtain ⟨b, hb, hb'⟩ := map_below_find? hbody
          (show c.splicedInside.below = f' by simp [splicedInside, hrole, hbody])
        simp only [field?, hb, hb', Option.some_or]
        rfl
      | none =>
        have hnone := find?_eq_none hbody
        simp only [field?, hnone, find?_eq_none_congr hnodes hnone, Option.none_or]
        cases hlist : splicedBody (·.isNamed "declaration_list") c.below with
        | some f' =>
          obtain ⟨b, hb, hb'⟩ := map_below_find? hlist
            (show c.splicedInside.below = f' by simp [splicedInside, hrole, hbody, hlist])
          simp only [namedChild?, hb, hb']
          rfl
        | none =>
          have hnone := find?_eq_none hlist
          simp only [namedChild?, hnone, find?_eq_none_congr hnodes hnone]
          rfl
  | preprocessor => simp [splicedInside, hrole]
  | usingDirective | methodDeclaration | otherDeclaration | ignored => rfl

/-- What stands below the declaration of a member comes from the sequence that is
searched. -/
theorem openedMembers_eq (source : String) (c : Concrete) :
    c.openedMembers source =
      (c.searched?.map fun s => (members source s.nodes).all).getD .nil := by
  have hopened := congrArg (Option.map fun f => (members source f).all) (map_below_opened? c)
  rw [Option.map_map, Option.map_map] at hopened
  exact congrArg (Option.getD · .nil) hopened

/-- After splicing, it comes from the spliced sequence. -/
theorem openedMembers_splicedInside (source : String) (c : Concrete) :
    c.splicedInside.openedMembers source =
      (c.searched?.map fun s => (members source (spliced s.inBody s.nodes)).all).getD .nil := by
  have hopened := congrArg (Option.map fun f => (members source f).all)
    (map_below_opened?_splicedInside c)
  rw [Option.map_map, Option.map_map] at hopened
  exact congrArg (Option.getD · .nil) hopened

/-- The sequence that is searched is that of the children of the member or of one of
them. -/
theorem nodes_of_searched? {s : Searched} (h : c.searched? = some s) :
    s.nodes = c.below ∨ ∃ t ∈ c.below.trees, s.nodes = t.2 := by
  have hopened := map_below_opened? c
  rw [h, Option.map_some] at hopened
  obtain ⟨b, hb, hbelow⟩ := Option.map_eq_some_iff.mp hopened
  rcases opened?_eq_some hb with rfl | hchild
  · exact Or.inl hbelow.symm
  · obtain ⟨t, ht, rfl⟩ := List.mem_map.mp hchild
    exact Or.inr ⟨t, ht, hbelow.symm⟩

end Searched

/-- The declarations of a sequence are those of its parts. -/
theorem declarations_append (source : String) (f g : Forest ConcreteNode) :
    declarations source (f ++ g) = declarations source f ++ declarations source g := by
  induction f with
  | nil => rfl
  | cons node below rest _ ih =>
    rw [Forest.cons_append, declarations_cons, declarations_cons, ih, List.append_assoc,
      List.append_assoc, List.append_assoc]

/-- A property of all sequences, if a sequence has it whenever it holds of what stands below
its first node, of what is searched for the members of that node and of the rest. -/
theorem searched_induction {motive : Forest ConcreteNode → Prop} (nil : motive .nil)
    (cons : ∀ node below rest, motive below →
      (∀ s, (⟨node, below⟩ : Concrete).searched? = some s → motive s.nodes) → motive rest →
        motive (.cons node below rest)) (f : Forest ConcreteNode) : motive f := by
  induction f using Forest.two_level_induction with
  | nil => exact nil
  | cons node below rest ihBelow ihFurther ihRest =>
    refine cons node below rest ihBelow ?_ ihRest
    intro s hs
    rcases nodes_of_searched? hs with hnodes | ⟨t, ht, hnodes⟩
    · rw [hnodes]
      exact ihBelow
    · rw [hnodes]
      exact ihFurther t ht

/-- A member has the same declarations below it if splicing changes nothing about those of
the sequence that is searched. -/
theorem openedDeclarations_splicedInside (h : ∀ s, c.searched? = some s →
      declarations source (spliced s.inBody s.nodes) = declarations source s.nodes) :
    c.splicedInside.openedDeclarations source = c.openedDeclarations source := by
  rw [← labels_openedMembers, ← labels_openedMembers, openedMembers_splicedInside,
    openedMembers_eq]
  cases hsearched : c.searched? with
  | none => rfl
  | some s => exact h s hsearched

/-- Splicing changes nothing about which declarations there are and in which order. -/
theorem declarations_spliced (source : String) (inBody : Bool) (f : Forest ConcreteNode) :
    declarations source (spliced inBody f) = declarations source f := by
  induction f using searched_induction generalizing inBody with
  | nil => rfl
  | cons node below rest ihBelow ihSearched ihRest =>
    by_cases hblock : inBody = true ∧ node.role = .preprocessor
    · obtain ⟨rfl, hrole⟩ := hblock
      rw [spliced_cons_block hrole, declarations_append, ihBelow, ihRest, declarations_cons,
        openedDeclarations]
      simp [declared?, opened?, hrole]
    · have hstays : inBody = false ∨ node.role ≠ .preprocessor := by
        rwa [not_and_or, Bool.not_eq_true] at hblock
      have hbelow := openedDeclarations_splicedInside fun s hs => ihSearched s hs s.inBody
      rw [spliced_cons hstays, declarations_cons, declarations_cons, ihRest, ← hbelow,
        ← declared?_splicedInside source ⟨node, below⟩]
      rfl

/-- As many declarations stand below a member after its sequences are spliced. -/
theorem size_openedMembers_splicedInside (source : String) (c : Concrete) :
    (c.splicedInside.openedMembers source).size = (c.openedMembers source).size := by
  have hbelow : c.splicedInside.openedDeclarations source = c.openedDeclarations source :=
    openedDeclarations_splicedInside fun s _ => declarations_spliced source s.inBody s.nodes
  rw [← Forest.length_labels, ← Forest.length_labels, labels_openedMembers, labels_openedMembers,
    hbelow]

end Concrete

end StubGen

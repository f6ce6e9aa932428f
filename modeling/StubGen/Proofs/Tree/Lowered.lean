import StubGen.Proofs.Concrete.Unspaced
import StubGen.Proofs.SyntaxError.Flagged
import StubGen.Proofs.Tree.Lowering
import StubGen.Proofs.Tree.Shape

/-!
# What every declaration tree of a file looks like

Whatever the source text and the concrete tree, the compilation unit is the only one in its
declaration tree, members stand only where members can be, no text holds a blank, and no type is
named by a keyword. If the nodes of the concrete tree lie in each other in order, then the places
of the declarations start in the order of a walk.

Members below a declaration are found on the forest that is numbered into the tree: a node with a
child in the tree is a label with something below it in the forest.
-/

namespace StubGen

namespace Tree

/-- The parent of a member of a forest is the node that the forest is put below, or the number of a
label with something below it. -/
theorem exists_subtree_of_mem_numbered {next parent : Nat} {f : Forest Declaration} {m : Member}
    (hm : m ∈ numbered next parent f) :
    m.parent = parent ∨ ∃ k t, m.parent = next + k ∧ f.subtrees[k]? = some t ∧ t.2 ≠ .nil := by
  induction f generalizing next parent with
  | nil => exact absurd hm List.not_mem_nil
  | cons d below rest ihBelow ihRest =>
    rw [numbered, List.mem_cons, List.mem_append] at hm
    rcases hm with rfl | hbelow | hrest
    · exact Or.inl rfl
    · right
      rcases ihBelow hbelow with hparent | ⟨k, t, hparent, ht, hne⟩
      · refine ⟨0, (d, below), hparent, rfl, ?_⟩
        rintro rfl
        exact absurd hbelow List.not_mem_nil
      · refine ⟨k + 1, t, by omega, ?_, hne⟩
        rw [Forest.subtrees, List.cons_append, List.getElem?_cons_succ,
          List.getElem?_append_left (List.getElem?_eq_some_iff.mp ht).1]
        exact ht
    · rcases ihRest hrest with hparent | ⟨k, t, hparent, ht, hne⟩
      · exact Or.inl hparent
      · refine Or.inr ⟨below.size + k + 1, t, by omega, ?_, hne⟩
        rw [Forest.subtrees, List.cons_append, List.getElem?_cons_succ,
          List.getElem?_append_right (by rw [Forest.length_subtrees]; omega),
          Forest.length_subtrees, Nat.add_sub_cancel_left]
        exact ht

/-- A node of the tree of a forest that has a child is the compilation unit, or has the declaration
of a label with something below it. -/
theorem exists_subtree_of_parent {file : FileId} {span : Span} {f : Forest Declaration}
    {i p : Fin (ofForest file span f).size} (hp : (ofForest file span f).parent i = some p) :
    p = (ofForest file span f).root ∨
      ∃ t ∈ f.subtrees, t.1 = (ofForest file span f).declaration p ∧ t.2 ≠ .nil := by
  obtain ⟨k, m, -, hm, hparent⟩ := parent_eq_some.mp hp
  have hmem : m ∈ numbered 1 0 f := by
    rw [← members_ofForest file span]
    exact Array.mem_toList_iff.mpr (Array.mem_of_getElem? hm)
  rcases exists_subtree_of_mem_numbered hmem with hroot | ⟨k, t, hnumber, ht, hne⟩
  · exact Or.inl (Fin.ext (hparent.symm.trans hroot))
  · refine Or.inr ⟨t, List.mem_of_getElem? ht, Option.some.inj ?_, hne⟩
    have hlabel := getElem?_declaration_ofForest p
    rw [show p.val = k + 1 by omega, List.getElem?_cons_succ, ← Forest.map_fst_subtrees,
      List.getElem?_map, ht] at hlabel
    exact hlabel

end Tree

/-- The kinds of declarations below which members can stand. -/
def Declaration.Kind.HoldsMembers (kind : Declaration.Kind) : Prop :=
  kind = .namespaceDeclaration ∨ ∃ form, form ≠ .enumType ∧ kind = .typeDeclaration form

namespace Concrete

variable {c : Concrete} {d : Declaration} {source : String}

/-- A declaration of a node that opens something can hold members. -/
theorem holdsMembers_of_opened? (h : c.declared? source = some d) (hopened : c.opened? ≠ none) :
    d.kind.HoldsMembers := by
  unfold declared? at h
  unfold opened? at hopened
  cases hrole : c.node.role with
  | fileScopedNamespace | namespaceBlock =>
    rw [hrole] at h
    obtain rfl := Option.some.inj h
    exact Or.inl rfl
  | typeDeclaration =>
    rw [hrole] at h hopened
    obtain rfl := Option.some.inj h
    refine Or.inr ⟨c.typeForm, fun henum => hopened ?_, rfl⟩
    exact if_pos henum
  | usingDirective | methodDeclaration | otherDeclaration =>
    rw [hrole] at hopened
    exact absurd rfl hopened
  | preprocessor | ignored =>
    rw [hrole] at h
    cases h

/-- Members stand below declarations that can hold them. -/
def MembersHeld (f : Forest Declaration) : Prop :=
  ∀ t ∈ f.subtrees, t.2 ≠ .nil → t.1.kind.HoldsMembers

/-- They do so in a sequence if they do in its parts. -/
theorem membersHeld_append {f g : Forest Declaration} :
    MembersHeld (f ++ g) ↔ MembersHeld f ∧ MembersHeld g := by
  simp only [MembersHeld, Forest.subtrees_append, List.forall_mem_append]

/-- They do so in a forest if they do below its first tree and in the rest. -/
theorem membersHeld_cons {below rest : Forest Declaration} :
    MembersHeld (.cons d below rest) ↔
      (below ≠ .nil → d.kind.HoldsMembers) ∧ MembersHeld below ∧ MembersHeld rest :=
  Forest.forall_mem_subtrees_cons

/-- What a member contributes stands below declarations that can hold it, if that is so for what
is opened. -/
theorem membersHeld_contribution (h : MembersHeld (c.openedMembers source)) :
    MembersHeld (c.contribution source) := by
  unfold contribution
  cases hdeclared : c.declared? source with
  | none => exact h
  | some d =>
    refine membersHeld_cons.mpr ⟨fun hne => holdsMembers_of_opened? hdeclared ?_, h, ?_⟩
    · intro hnone
      rw [openedMembers, hnone] at hne
      exact hne rfl
    · exact fun t ht => absurd ht List.not_mem_nil

/-- The members found in a sequence of nodes stand below declarations that can hold them. -/
theorem membersHeld_members (source : String) (f : Forest ConcreteNode) :
    MembersHeld (members source f).all := by
  induction f using Forest.two_level_induction with
  | nil => exact fun t ht => absurd ht List.not_mem_nil
  | cons node below rest ihBelow ihFurther ihRest =>
    -- What is opened is the node itself or one of its children.
    have hopened : MembersHeld ((⟨node, below⟩ : Concrete).openedMembers source) := by
      unfold openedMembers
      cases hb : (⟨node, below⟩ : Concrete).opened? with
      | none => exact fun t ht => absurd ht List.not_mem_nil
      | some b =>
        rcases opened?_eq_some hb with rfl | hchild
        · exact ihBelow
        · obtain ⟨t, ht, rfl⟩ := List.mem_map.mp hchild
          exact ihFurther t ht
    obtain ⟨hown, hadopting⟩ := membersHeld_append.mp ihRest
    by_cases hrole : node.role = .fileScopedNamespace
    · rw [members_cons_of_fileScoped hrole]
      exact membersHeld_cons.mpr
        ⟨fun _ => Or.inl rfl, membersHeld_append.mpr ⟨hopened, hown⟩, hadopting⟩
    · rw [members_cons_of_not_fileScoped hrole]
      exact membersHeld_append.mpr
        ⟨membersHeld_append.mpr ⟨membersHeld_contribution hopened, hown⟩, hadopting⟩

section Places

/-- The places of what is declared below a member are among those of the nodes below it. -/
theorem openedSpans_sublist
    (h : ∀ b, c.opened? = some b →
      ((declarations source b.below).map (·.span)).Sublist (c.below.labels.map (·.span))) :
    ((c.openedDeclarations source).map (·.span)).Sublist (c.below.labels.map (·.span)) := by
  unfold openedDeclarations
  cases hb : c.opened? with
  | none => exact List.nil_sublist _
  | some b => exact h b hb

/-- The places of the declarations are among those of the nodes, in order. -/
theorem spans_sublist (source : String) (f : Forest ConcreteNode) :
    ((declarations source f).map (·.span)).Sublist (f.labels.map (·.span)) := by
  induction f using Forest.two_level_induction with
  | nil => exact List.nil_sublist _
  | cons node below rest ihBelow ihFurther ihRest =>
    have hself : (((⟨node, below⟩ : Concrete).declared? source).toList.map (·.span)).Sublist
        [node.span] := by
      cases hdeclared : (⟨node, below⟩ : Concrete).declared? source with
      | none => exact List.nil_sublist _
      | some d => rw [Option.toList_some, List.map_singleton, span_of_declared? hdeclared]
    have hopened : (((⟨node, below⟩ : Concrete).openedDeclarations source).map (·.span)).Sublist
        (below.labels.map (·.span)) := by
      refine openedSpans_sublist fun b hb => ?_
      rcases opened?_eq_some hb with rfl | hchild
      · exact ihBelow
      · obtain ⟨t, ht, rfl⟩ := List.mem_map.mp hchild
        exact (ihFurther t ht).trans ((Forest.labels_sublist_of_mem_trees ht).map _)
    rw [declarations_cons, Forest.labels, List.map_append, List.map_append, List.map_append,
      List.map_cons]
    exact ((hself.append hopened).append ihRest)

/-- The places of nested nodes start in order. -/
theorem Nested.starts_pairwise (h : c.Nested) :
    ((c.node :: c.below.labels).map (·.span.start)).Pairwise (· ≤ ·) :=
  List.pairwise_map.mpr (h.nodes_pairwise.imp Span.ofOffsets_start_le)

end Places

end Concrete

namespace Tree

open Concrete

variable {file : FileId} {source : String} {c : Concrete}

/-- A node of the declaration tree of a file is the compilation unit, or is declared by a node of
the concrete tree. -/
theorem declaration_ofConcrete_cases (i : Fin (ofConcrete file source c).size) :
    i = (ofConcrete file source c).root ∧
        (ofConcrete file source c).declaration i =
          { kind := .compilationUnit, span := c.node.span } ∨
      i ≠ (ofConcrete file source c).root ∧
        ∃ d : Concrete, d.DeclaredAs source ((ofConcrete file source c).declaration i) := by
  cases hi : i.val with
  | zero =>
    have hunit := getElem?_declaration_ofConcrete i
    rw [hi, List.getElem?_cons_zero] at hunit
    exact Or.inl ⟨Fin.ext hi, (Option.some.inj hunit).symm⟩
  | succ k =>
    obtain ⟨-, -, d, -, -, hdeclared⟩ := exists_keeps_of_declaration file source c hi
    refine Or.inr ⟨fun hroot => ?_, d, declaredAs_of_declared? hdeclared⟩
    rw [hroot] at hi
    cases hi

/-- The declarations of a nested tree start in the order of a walk. -/
theorem starts_pairwise_ofConcrete (h : c.Nested) :
    ((ofConcrete file source c).descendants.map fun i =>
      ((ofConcrete file source c).declaration i).span.start).Pairwise (· ≤ ·) := by
  have hwalk := congrArg (·.map (·.span.start)) (declarations_ofConcrete file source c)
  rw [List.map_map, List.map_cons] at hwalk
  have hplaces : ((declarations source c.below).map (·.span.start)).Sublist
      (c.below.labels.map (·.span.start)) := by
    simpa only [List.map_map, Function.comp_def] using (spans_sublist source c.below).map (·.start)
  exact hwalk ▸ h.starts_pairwise.sublist (hplaces.cons_cons _)

/-- What stands in the declaration tree of a file, whatever the source text and the concrete
tree. -/
theorem ofConcrete_regular (file : FileId) (source : String) (c : Concrete) :
    (∀ i, ((ofConcrete file source c).declaration i).kind = .compilationUnit ↔
      i = (ofConcrete file source c).root) ∧
    (∀ i, (ofConcrete file source c).children i ≠ [] →
      i = (ofConcrete file source c).root ∨
        ((ofConcrete file source c).declaration i).kind.HoldsMembers) ∧
    (∀ i, ∀ text ∈ ((ofConcrete file source c).declaration i).texts, Text.Unspaced text) ∧
    (∀ i, ∀ type ∈ ((ofConcrete file source c).declaration i).types, type.NotNamedByKeyword) ∧
    (c.Nested → ((ofConcrete file source c).descendants.map fun i =>
      ((ofConcrete file source c).declaration i).span.start).Pairwise (· ≤ ·)) := by
  refine ⟨fun i => ?_, fun i hchildren => ?_, fun i => ?_, fun i type htype => ?_,
    starts_pairwise_ofConcrete⟩
  · rcases declaration_ofConcrete_cases i with ⟨hroot, hunit⟩ | ⟨hroot, d, hd⟩
    · exact iff_of_true (by rw [hunit]) hroot
    · exact iff_of_false hd.kind_ne_compilationUnit hroot
  · obtain ⟨child, hchild⟩ := List.exists_mem_of_ne_nil _ hchildren
    refine (exists_subtree_of_parent (mem_children.mp hchild)).imp_right ?_
    rintro ⟨t, ht, hdeclaration, hne⟩
    exact hdeclaration ▸ membersHeld_members source c.below t ht hne
  · rcases declaration_ofConcrete_cases i with ⟨-, hunit⟩ | ⟨-, d, hd⟩
    · rw [hunit]
      exact Declaration.unspaced_compilationUnit _
    · exact hd.unspaced
  · rcases declaration_ofConcrete_cases i with ⟨-, hunit⟩ | ⟨-, d, hd⟩
    · rw [hunit] at htype
      exact absurd htype List.not_mem_nil
    · obtain ⟨text, rfl⟩ := hd.exists_parse htype
      exact TypeSyntax.notNamedByKeyword_parse text

/-- A file with a class in a namespace, written with blanks in the name of the namespace and in the
return type of a method. -/
def spacedNames : Concrete :=
  branch "compilation_unit" 0 55
    [branch "namespace_declaration" 0 55
      [leaf "namespace" false 0 9, branch "qualified_name" 10 15 [] "name",
        branch "declaration_list" 16 55
          [branch "class_declaration" 18 53
            [leaf "class" false 18 23, leaf "identifier" true 24 25 "name",
              branch "declaration_list" 26 53
                [branch "method_declaration" 28 51
                  [leaf "generic_name" true 28 46 "returns",
                    leaf "identifier" true 47 48 "name",
                    branch "parameter_list" 48 50 [] "parameters"]]
                "body"]]
          "body"]]

/-- The text of the file. -/
def spacedNamesText : String :=
  "namespace A . B \x7b class C \x7b Dictionary<int, D> M(); \x7d \x7d"

/-- The blanks are gone, and the declarations start in the order of a walk. -/
theorem ofConcrete_regular_spacedNames :
    spacedNames.Nested ∧
      (ofConcrete ⟨0⟩ spacedNamesText spacedNames).members.toList.map (·.declaration.texts) =
        [["A.B"], ["C"], ["M", "Dictionary<int,D>"]] ∧
      ((ofConcrete ⟨0⟩ spacedNamesText spacedNames).descendants.map fun i =>
        ((ofConcrete ⟨0⟩ spacedNamesText spacedNames).declaration i).span.start).Pairwise
          (· ≤ ·) := by
  have hnested : spacedNames.Nested := by
    simp [spacedNames, branch, leaf, Concrete.Nested, Forest.Nested]
  obtain ⟨-, -, -, -, hordered⟩ := ofConcrete_regular ⟨0⟩ spacedNamesText spacedNames
  exact ⟨hnested, by decide +kernel, hordered hnested⟩

end Tree

end StubGen

import StubGen.Proofs.Concrete.Splicing

/-!
# When blocks can be seen through

Replacing the preprocessor blocks among the members of a file by what they hold leaves the
same declarations in the same order. Whether they keep their parents depends on the
file-scoped namespaces in blocks. A block has followers of its own: a file-scoped namespace
in it takes in what follows it in the block and nothing beyond the block, and it stands
below a file-scoped namespace before the block. Without the blocks it would take in what
follows the block, and it would stand beside the namespace before it.

So the parents stay exactly if no block shows this difference, and that is a condition on
the concrete tree alone.
-/

namespace StubGen

namespace Concrete

namespace Members

/-- Members cannot be told apart where they stand: behind a file-scoped namespace (`led`),
which takes the first of them in, or not. -/
def Agrees (led : Bool) (m n : Members) : Prop := if led then m = n else m.all = n.all

variable {m n first second : Members} {led : Bool} {f g : Forest Declaration}

/-- What comes before members comes before all of them. -/
theorem all_after (m : Members) (f : Forest Declaration) : (m.after f).all = f ++ m.all :=
  Forest.append_assoc f m.own m.adopting

/-- Behind equally many declarations, members agree if they do so alone and what is before
them is the same. -/
theorem agrees_after (hsize : f.size = g.size) :
    (m.after f).Agrees led (n.after g) ↔ f = g ∧ m.Agrees led n := by
  unfold Agrees
  cases led with
  | false =>
    simp only [Bool.false_eq_true, if_false, all_after]
    exact Forest.append_inj hsize
  | true =>
    simp only [if_true, after, Members.mk.injEq, Forest.append_inj hsize, and_assoc]
    constructor
    · intro h
      exact ⟨h.1, by cases m; cases n; simp_all⟩
    · intro h
      exact ⟨h.1, congrArg own h.2, congrArg adopting h.2⟩

/-- Below a file-scoped namespace, members agree if they are the same. -/
theorem agrees_below (hsize : f.size = g.size) (d : Declaration) :
    Agrees led { adopting := .cons d (f ++ m.own) m.adopting }
      { adopting := .cons d (g ++ n.own) n.adopting } ↔ f = g ∧ m.Agrees true n := by
  have hsame : Forest.cons d (f ++ m.own) m.adopting = .cons d (g ++ n.own) n.adopting ↔
      f = g ∧ m = n := by
    rw [Forest.cons.injEq, Forest.append_inj hsize]
    cases m
    cases n
    simp [and_assoc]
  unfold Agrees
  cases led with
  | false => simpa [all] using hsame
  | true => simpa using hsame

/-- All members of two sequences of which the first has a file-scoped namespace. -/
theorem all_followedBy_of_ne_nil (h : first.adopting ≠ .nil) :
    (first.followedBy second).all = first.all.extendLast second.own ++ second.adopting := by
  rw [followedBy_of_ne_nil h, all, all, ← Forest.append_assoc, Forest.append_extendLast _ h]

/-- The members of one sequence after another agree with those that are all found before
the others exactly if the parts agree and either no file-scoped namespace is in the first
part, or none is before both and the second declares nothing before its first one. -/
theorem agrees_followedBy (hsize : first.all.size = f.size) :
    (first.followedBy second).Agrees led (n.after f) ↔
      first.all = f ∧ second.Agrees led n ∧
        (first.adopting = .nil ∨ led = false ∧ second.own = .nil) := by
  by_cases hadopting : first.adopting = .nil
  · have hall : first.all = first.own := by
      rw [all, hadopting, Forest.append_nil]
    rw [followedBy_of_nil hadopting, ← hall, agrees_after hsize]
    simp [hadopting]
  · cases led with
    | false =>
      simp only [Agrees, Bool.false_eq_true, if_false, all_followedBy_of_ne_nil hadopting,
        all_after, hadopting, false_or, true_and]
      have hne : first.all ≠ .nil := fun hnil => hadopting (Forest.append_eq_nil_iff.mp hnil).2
      constructor
      · intro h
        have hown := Forest.extendLast_cut hne hsize h
        rw [hown, Forest.extendLast_nil] at h
        obtain ⟨hall, hsecond⟩ := (Forest.append_inj hsize).mp h
        refine ⟨hall, ?_, hown⟩
        rw [all, hown, hsecond]
        rfl
      · intro h
        obtain ⟨hall, hsecond, hown⟩ := h
        rw [hown, Forest.extendLast_nil, hall, ← hsecond, all, hown]
        rfl
    | true =>
      simp only [Agrees, if_true, hadopting, Bool.true_eq_false, false_and, or_self, and_false,
        iff_false]
      intro h
      -- The declarations in the block would all have to stand before its first namespace.
      have hown := congrArg (fun m => m.own.size) h
      simp only [followedBy_of_ne_nil hadopting, after, Forest.size_append] at hown
      rw [all, Forest.size_append] at hsize
      exact hadopting (Forest.size_eq_zero_iff.mp (by omega))

end Members

variable {source : String} {node : ConcreteNode} {below rest f : Forest ConcreteNode}
  {inBody led : Bool}

/-- Sequences in which no block shows a difference. A sequence is that of a body (`inBody`),
where blocks are replaced, or not, and it stands behind a file-scoped namespace (`led`) or
not. -/
inductive Settled (source : String) : Bool → Bool → Forest ConcreteNode → Prop
  | nil {inBody led : Bool} : Settled source inBody led .nil
  /-- A node that stays. What it holds is a sequence of its own. -/
  | member {inBody led : Bool} {node : ConcreteNode} {below rest : Forest ConcreteNode}
      (hstays : inBody = false ∨ node.role ≠ .preprocessor)
      (hsearched : ∀ s, (⟨node, below⟩ : Concrete).searched? = some s →
        Settled source s.inBody false s.nodes)
      (hrest : Settled source inBody (led || decide (node.role = .fileScopedNamespace)) rest) :
      Settled source inBody led (.cons node below rest)
  /-- A block that is replaced. It holds no file-scoped namespace, or else none is before it
  and nothing is declared between the block and the next one. -/
  | block {led : Bool} {node : ConcreteNode} {below rest : Forest ConcreteNode}
      (hrole : node.role = .preprocessor) (hbelow : Settled source true false below)
      (hrest : Settled source true led rest)
      (hclosed : (∀ t ∈ (spliced true below).trees, t.1.role ≠ .fileScopedNamespace) ∨
        led = false ∧ ∀ c ∈ leading (spliced true rest), c.declared? source = none) :
      Settled source true led (.cons node below rest)

/-- A sequence whose first node stays. -/
theorem settled_cons (hstays : inBody = false ∨ node.role ≠ .preprocessor) :
    Settled source inBody led (.cons node below rest) ↔
      (∀ s, (⟨node, below⟩ : Concrete).searched? = some s →
        Settled source s.inBody false s.nodes) ∧
        Settled source inBody (led || decide (node.role = .fileScopedNamespace)) rest := by
  constructor
  · intro h
    cases h with
    | member _ hsearched hrest => exact ⟨hsearched, hrest⟩
    | block hrole => simp [hrole] at hstays
  · intro h
    exact .member hstays h.1 h.2

/-- A sequence whose first node is a block that is replaced. -/
theorem settled_cons_block (hrole : node.role = .preprocessor) :
    Settled source true led (.cons node below rest) ↔
      Settled source true false below ∧ Settled source true led rest ∧
        ((∀ t ∈ (spliced true below).trees, t.1.role ≠ .fileScopedNamespace) ∨
          led = false ∧ ∀ c ∈ leading (spliced true rest), c.declared? source = none) := by
  constructor
  · intro h
    cases h with
    | member hstays => simp [hrole] at hstays
    | block _ hbelow hrest hclosed => exact ⟨hbelow, hrest, hclosed⟩
  · intro h
    exact .block hrole h.1 h.2.1 h.2.2

/-- A member that is no block adds nothing exactly if it declares nothing. -/
theorem contribution_eq_nil_iff {c : Concrete} (hrole : c.node.role ≠ .preprocessor) :
    c.contribution source = .nil ↔ c.declared? source = none := by
  unfold contribution
  cases hdeclared : c.declared? source with
  | some d => simp
  | none =>
    have hopened : c.opened? = none := by
      unfold declared? at hdeclared
      unfold opened?
      cases hkind : c.node.role with
      | preprocessor => exact absurd hkind hrole
      | fileScopedNamespace | namespaceBlock | typeDeclaration => simp [hkind] at hdeclared
      | usingDirective | methodDeclaration | otherDeclaration | ignored => rfl
    simp [openedMembers, hopened]

/-- In a spliced body nothing is declared before the first file-scoped namespace exactly if
no node before it has a declaration. -/
theorem own_spliced_eq_nil_iff :
    (members source (spliced true f)).own = .nil ↔
      ∀ c ∈ leading (spliced true f), c.declared? source = none := by
  rw [own_eq_nil_iff]
  refine forall₂_congr fun c hc => contribution_eq_nil_iff ?_
  obtain ⟨t, ht, rfl⟩ := List.mem_map.mp hc
  exact role_of_mem_spliced (List.takeWhile_subset _ ht)

/-- What stands below a member stays exactly if the members of the sequence that is searched
do. -/
theorem openedMembers_splicedInside_eq_iff {c : Concrete} :
    c.splicedInside.openedMembers source = c.openedMembers source ↔
      ∀ s, c.searched? = some s →
        (members source (spliced s.inBody s.nodes)).Agrees false (members source s.nodes) := by
  rw [openedMembers_splicedInside, openedMembers_eq]
  cases c.searched? <;> simp [Members.Agrees]

/-- What a member adds changes only below its declaration. -/
theorem contribution_splicedInside_eq_iff {c : Concrete} :
    c.splicedInside.contribution source = c.contribution source ↔
      c.splicedInside.openedMembers source = c.openedMembers source := by
  unfold contribution
  rw [declared?_splicedInside]
  cases c.declared? source <;> simp

/-- As many declarations are added by a member after its sequences are spliced. -/
theorem size_contribution_splicedInside (c : Concrete) :
    (c.splicedInside.contribution source).size = (c.contribution source).size := by
  have hsize := size_openedMembers_splicedInside source c
  unfold contribution
  rw [declared?_splicedInside]
  cases c.declared? source <;> simp [Forest.size, hsize]

/-- Splicing a sequence leaves its members as they are exactly if the sequence is
settled. -/
theorem agrees_iff_settled (source : String) (inBody led : Bool) (f : Forest ConcreteNode) :
    (members source (spliced inBody f)).Agrees led (members source f) ↔
      Settled source inBody led f := by
  induction f using searched_induction generalizing inBody led with
  | nil =>
    rw [spliced, Members.Agrees]
    simp [Settled.nil]
  | cons node below rest ihBelow ihSearched ihRest =>
    by_cases hblock : inBody = true ∧ node.role = .preprocessor
    · obtain ⟨rfl, hrole⟩ := hblock
      have hsize : (members source (spliced true below)).all.size =
          (members source below).all.size := by
        rw [← Forest.length_labels, ← Forest.length_labels]
        exact congrArg List.length (declarations_spliced source true below)
      have hcontribution : (⟨node, below⟩ : Concrete).contribution source =
          (members source below).all := by
        simp [contribution, declared?, openedMembers, opened?, hrole]
      have hbelow : (members source (spliced true below)).all = (members source below).all ↔
          Settled source true false below := ihBelow true false
      rw [spliced_cons_block hrole, members_append,
        members_cons_of_not_fileScoped (by rw [hrole]; decide), hcontribution,
        Members.agrees_followedBy hsize, hbelow, ihRest, adopting_eq_nil_iff,
        own_spliced_eq_nil_iff, settled_cons_block hrole]
    · have hstays : inBody = false ∨ node.role ≠ .preprocessor := by
        rwa [not_and_or, Bool.not_eq_true] at hblock
      have hsearched : (⟨node, below⟩ : Concrete).splicedInside.openedMembers source =
          (⟨node, below⟩ : Concrete).openedMembers source ↔
            ∀ s, (⟨node, below⟩ : Concrete).searched? = some s →
              Settled source s.inBody false s.nodes := by
        rw [openedMembers_splicedInside_eq_iff]
        exact forall₂_congr fun s hs => ihSearched s hs s.inBody false
      rw [spliced_cons hstays, settled_cons hstays, ← hsearched, ← ihRest]
      by_cases hrole : node.role = .fileScopedNamespace
      · have hdeclaration : (⟨node, below⟩ : Concrete).splicedInside.namespaceDeclaration source =
            (⟨node, below⟩ : Concrete).namespaceDeclaration source := by
          simp only [namespaceDeclaration, fieldText_congr (nodes_splicedInside _)]
          rfl
        rw [members_cons_of_fileScoped hrole, members_cons_of_fileScoped hrole, ← hdeclaration]
        simp only [hrole, decide_true, Bool.or_true]
        exact Members.agrees_below (size_openedMembers_splicedInside source ⟨node, below⟩) _
      · rw [members_cons_of_not_fileScoped hrole, members_cons_of_not_fileScoped hrole,
          ← contribution_splicedInside_eq_iff]
        simp only [hrole, decide_false, Bool.or_false]
        exact Members.agrees_after (size_contribution_splicedInside ⟨node, below⟩)

/-- Without a file-scoped namespace in a sequence or in a block there is none after
splicing. -/
theorem not_fileScoped_of_mem_spliced {t : ConcreteNode × Forest ConcreteNode}
    (hplain : ∀ u ∈ f.trees, u.1.role ≠ .fileScopedNamespace)
    (hblocks : ∀ b ∈ f.subtrees, b.1.role = .preprocessor →
      ∀ u ∈ b.2.trees, u.1.role ≠ .fileScopedNamespace)
    (ht : t ∈ (spliced true f).trees) : t.1.role ≠ .fileScopedNamespace := by
  induction f with
  | nil => simp [spliced, Forest.trees] at ht
  | cons node below rest ihBelow ihRest =>
    rw [Forest.trees, List.forall_mem_cons] at hplain
    obtain ⟨hnode, hbelow, hrest⟩ := Forest.forall_mem_subtrees_cons.mp hblocks
    by_cases hrole : node.role = .preprocessor
    · rw [spliced_cons_block hrole, Forest.trees_append, List.mem_append] at ht
      rcases ht with ht | ht
      · exact ihBelow (hnode hrole) hbelow ht
      · exact ihRest hplain.2 hrest ht
    · rw [spliced_cons (Or.inr hrole), Forest.trees, List.mem_cons] at ht
      rcases ht with rfl | ht
      · exact hplain.1
      · exact ihRest hplain.2 hrest ht

/-- A sequence is settled if no block below it holds a file-scoped namespace. -/
theorem settled_of_blocks (hblocks : ∀ b ∈ f.subtrees, b.1.role = .preprocessor →
      ∀ u ∈ b.2.trees, u.1.role ≠ .fileScopedNamespace) : Settled source inBody led f := by
  induction f using searched_induction generalizing inBody led with
  | nil => exact .nil
  | cons node below rest ihBelow ihSearched ihRest =>
    obtain ⟨hnode, hbelow, hrest⟩ := Forest.forall_mem_subtrees_cons.mp hblocks
    by_cases hblock : inBody = true ∧ node.role = .preprocessor
    · obtain ⟨rfl, hrole⟩ := hblock
      exact .block hrole (ihBelow hbelow) (ihRest hrest)
        (Or.inl fun t ht => not_fileScoped_of_mem_spliced (hnode hrole) hbelow ht)
    · rw [not_and_or, Bool.not_eq_true] at hblock
      refine .member hblock ?_ (ihRest hrest)
      intro s hs
      refine ihSearched s hs ?_
      intro b hb
      rcases nodes_of_searched? hs with hnodes | ⟨t, ht, hnodes⟩
      · rw [hnodes] at hb
        exact hbelow b hb
      · rw [hnodes] at hb
        exact hbelow b (Forest.subtrees_subset_of_mem_trees ht hb)

end Concrete

namespace Tree

open Concrete

/-- Replacing the blocks among the members of a file by what they hold keeps the
declarations and their order. It keeps their parents exactly if the file is settled, so
whenever no block holds a file-scoped namespace. And in every sequence of members, that of a
block included, a file-scoped namespace has below it what it holds and everything that
stands between it and the next one beside it. -/
theorem ofConcrete_withoutBlocks (file : FileId) (source : String) (c : Concrete) :
    (ofConcrete file source c.withoutBlocks).descendants.map
        (ofConcrete file source c.withoutBlocks).declaration =
      (ofConcrete file source c).descendants.map (ofConcrete file source c).declaration ∧
    (ofConcrete file source c.withoutBlocks = ofConcrete file source c ↔
      Settled source true false c.below) ∧
    ((∀ b ∈ c.below.subtrees, b.1.role = .preprocessor →
        ∀ u ∈ b.2.trees, u.1.role ≠ .fileScopedNamespace) →
      ofConcrete file source c.withoutBlocks = ofConcrete file source c) ∧
    ∀ (before between after below : Forest ConcreteNode) (node : ConcreteNode),
      node.role = .fileScopedNamespace →
      (∀ t ∈ between.trees, t.1.role ≠ .fileScopedNamespace) → leading after = [] →
      (Concrete.members source (before ++ .cons node below (between ++ after))).all =
        (Concrete.members source before).all ++
          .cons ((⟨node, below⟩ : Concrete).namespaceDeclaration source)
            ((⟨node, below⟩ : Concrete).openedMembers source ++ (Concrete.members source between).all)
            (Concrete.members source after).all := by
  have hsame : ofConcrete file source c.withoutBlocks = ofConcrete file source c ↔
      Settled source true false c.below :=
    ofForest_inj.trans (agrees_iff_settled source true false c.below)
  refine ⟨?_, hsame, ?_, ?_⟩
  · have hdeclarations := declarations_spliced source true c.below
    unfold declarations at hdeclarations
    unfold ofConcrete withoutBlocks
    rw [declarations_ofForest, declarations_ofForest, hdeclarations]
  · intro hblocks
    exact hsame.mpr (settled_of_blocks hblocks)
  · intro before between after below node hrole hbetween hafter
    exact members_of_adoption hrole hbetween hafter

/-- The names of the members of a tree, with the numbers of their parents. -/
def outline (t : Tree) : List (String × Nat) :=
  t.members.toList.map fun m => (m.declaration.name, m.parent)

/-- A class, written from `start` on. -/
def plainClass (start : Nat) : Concrete :=
  branch "class_declaration" start (start + 10)
    [leaf "class" false start (start + 5), leaf "identifier" true (start + 6) (start + 7) "name",
      branch "declaration_list" (start + 8) (start + 10)
        [leaf "\x7b" false (start + 8) (start + 9), leaf "\x7d" false (start + 9) (start + 10)]
        "body"]

/-- A file-scoped namespace, written from `start` on. -/
def plainNamespace (start : Nat) : Concrete :=
  branch "file_scoped_namespace_declaration" start (start + 12)
    [leaf "namespace" false start (start + 9),
      leaf "identifier" true (start + 10) (start + 11) "name",
      leaf ";" false (start + 11) (start + 12)]

/-- A file that starts with a conditional block, which ends at `stop`. -/
def blockFirst (held : Concrete) (stop size : Nat) (following : List Concrete) : Concrete :=
  branch "compilation_unit" 0 size
    (branch "preproc_if" 0 stop
      [leaf "#if" false 0 3, leaf "identifier" true 4 5 "condition", held,
        leaf "#endif" false (stop - 6) stop] :: following)

/-- A file with a using directive in a block, a namespace and a class. -/
def usingInBlock : Concrete :=
  blockFirst (branch "using_directive" 6 14
    [leaf "using" false 6 11, leaf "identifier" true 12 13, leaf ";" false 13 14]) 21 45
    [plainNamespace 22, plainClass 35]

/-- The text of the file. -/
def usingInBlockText : String := "#if A\nusing B;\n#endif\nnamespace N;\nclass C \x7b\x7d"

/-- The block makes no difference: the class stands below the namespace. -/
theorem seen_through_usingInBlock :
    outline (ofConcrete ⟨0⟩ usingInBlockText usingInBlock.withoutBlocks) =
        outline (ofConcrete ⟨0⟩ usingInBlockText usingInBlock) ∧
      outline (ofConcrete ⟨0⟩ usingInBlockText usingInBlock) =
        [("B", 0), ("N", 0), ("C", 2)] := by
  have hsame : ofConcrete ⟨0⟩ usingInBlockText usingInBlock.withoutBlocks =
      ofConcrete ⟨0⟩ usingInBlockText usingInBlock :=
    (ofConcrete_withoutBlocks ⟨0⟩ usingInBlockText usingInBlock).2.2.1 (by decide +kernel)
  exact ⟨congrArg outline hsame, by decide +kernel⟩

/-- A file with a file-scoped namespace in a block and a class. -/
def namespaceInBlock : Concrete := blockFirst (plainNamespace 6) 25 36 [plainClass 26]

/-- The text of the file. -/
def namespaceInBlockText : String := "#if A\nnamespace N;\n#endif\nclass C \x7b\x7d"

/-- The block makes a difference: the class follows the namespace but stands beside it, and
without the block it stands below it. -/
theorem not_seen_through_namespaceInBlock :
    outline (ofConcrete ⟨0⟩ namespaceInBlockText namespaceInBlock) = [("N", 0), ("C", 0)] ∧
      outline (ofConcrete ⟨0⟩ namespaceInBlockText namespaceInBlock.withoutBlocks) =
        [("N", 0), ("C", 1)] := by
  decide +kernel

end Tree

end StubGen

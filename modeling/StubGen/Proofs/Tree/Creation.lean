import StubGen.Proofs.Concrete.Members
import StubGen.Proofs.Tree.Links
import StubGen.Proofs.Tree.Shape

/-!
# The order in which the declarations of a file are put in

The declarations of a file can be put into a tree one by one, while the nodes of the concrete tree
are gone through in the order of the text. A new declaration goes below a target, and the target
moves: a body starts with what it is the body of, a preprocessor block with the target in front of
it, and a file-scoped namespace becomes the target of what follows it in its sequence.

The tree that is numbered from the forest of the declarations is what these pushes make, in their
order. The forest tells the members of a sequence itself from the namespaces that adopt the others.
In the pushes these two differ only in what they go below, which is the target for the former and
the node around the sequence for the latter.
-/

namespace StubGen

/-- The push that puts in a declaration. -/
def Push.ofMember (m : Member) : Push where
  parent := m.parent
  node := { declaration := m.declaration }

namespace Tree

variable {t : Tree} {d : Declaration}

/-- The pushes that put in a forest below `parent` when its first node gets the number `next`. -/
def pushesBelow (next parent : Nat) (f : Forest Declaration) : List Push :=
  (numbered next parent f).map .ofMember

/-- One push for each label. -/
theorem length_pushesBelow (next parent : Nat) (f : Forest Declaration) :
    (pushesBelow next parent f).length = f.size := by
  rw [pushesBelow, List.length_map, length_numbered]

/-- A tree is put in from its root on, and then what follows it. -/
theorem pushesBelow_cons (next parent : Nat) (below rest : Forest Declaration) :
    pushesBelow next parent (.cons d below rest) =
      .ofMember ⟨d, parent⟩ :: (pushesBelow (next + 1) next below ++
        pushesBelow (next + 1 + below.size) parent rest) := by
  rw [pushesBelow, numbered, List.map_cons, List.map_append]
  rfl

/-- Nothing is put in for nothing. -/
theorem pushesBelow_nil (next parent : Nat) : pushesBelow next parent .nil = [] := rfl

/-- A single tree is put in from its root on. -/
theorem pushesBelow_cons_nil (next parent : Nat) (below : Forest Declaration) :
    pushesBelow next parent (.cons d below .nil) =
      .ofMember ⟨d, parent⟩ :: pushesBelow (next + 1) next below := by
  rw [pushesBelow_cons, pushesBelow_nil, List.append_nil]

/-- A sequence is put in part by part. -/
theorem pushesBelow_append (next parent : Nat) (f g : Forest Declaration) :
    pushesBelow next parent (f ++ g) =
      pushesBelow next parent f ++ pushesBelow (next + f.size) parent g := by
  rw [pushesBelow, numbered_append, List.map_append]
  rfl

/-- With more below its root a tree is put in as without, before what is more and what follows. -/
theorem pushesBelow_cons_append (next parent : Nat) (below more rest : Forest Declaration) :
    pushesBelow next parent (.cons d (below ++ more) rest) =
      pushesBelow next parent (.cons d below .nil) ++
        (pushesBelow (next + 1 + below.size) next more ++
          pushesBelow (next + 1 + below.size + more.size) parent rest) := by
  rw [pushesBelow_cons, pushesBelow_cons_nil, pushesBelow_append, Forest.size_append,
    List.append_assoc, List.cons_append, Nat.add_assoc (next + 1)]

/-- One push, if the node that it goes below exists. -/
def put (t : Tree) (p : Push) : Tree :=
  if h : p.parent < t.size then t.push ⟨p.parent, h⟩ p.node.declaration else t

/-- A push below a node of the tree. -/
theorem put_ofMember (parent : Fin t.size) :
    t.put (.ofMember ⟨d, parent.val⟩) = t.push parent d := dif_pos parent.isLt

/-- Grafting a forest is putting in its nodes one by one. -/
theorem foldl_put_pushesBelow {next : Nat} (hnext : next = t.size) (parent : Fin t.size)
    (f : Forest Declaration) :
    (pushesBelow next parent.val f).foldl put t = (t.graft parent f).val := by
  induction f generalizing t next with
  | nil => rfl
  | cons d below rest ihBelow ihRest =>
    have hpushed := size_push t parent d
    have hbelow : (pushesBelow (next + 1) next below).foldl put (t.push parent d) =
        ((t.push parent d).graft ⟨next, by omega⟩ below).val :=
      ihBelow (by omega) ⟨next, by omega⟩
    have hsize := size_graft (t.push parent d) ⟨next, by omega⟩ below
    rw [pushesBelow_cons, List.foldl_cons, put_ofMember, List.foldl_append, hbelow]
    subst hnext
    exact ihRest (by omega) ⟨parent.val, by omega⟩

end Tree

namespace Concrete

open StubGen.Tree (pushesBelow pushesBelow_cons_nil pushesBelow_append pushesBelow_cons_append
  length_pushesBelow)

mutual

/-- Goes through a sequence of nodes in the order of the text and makes one push for each
declaration. File-scoped namespaces go below `parent`, everything else goes below `target`, which
is the latest file-scoped namespace in the sequence if there is one. A node gets the number of the
pushes done before it, plus one for the compilation unit. -/
def lowerMembers (source : String) (parent target : Nat) (done : List Push) :
    Forest ConcreteNode → List Push
  | .nil => done
  | .cons node below rest =>
    let c : Concrete := ⟨node, below⟩
    let number := done.length + 1
    match node.role with
    | .fileScopedNamespace =>
      let opened := done ++ [.ofMember ⟨c.namespaceDeclaration source, parent⟩]
      let lowered := (lowerBody source (·.fills "body") number opened below).getD
        (lowerMembers source number number opened below)
      lowerMembers source parent number lowered rest
    | .namespaceBlock =>
      let opened := done ++ [.ofMember ⟨c.namespaceDeclaration source, target⟩]
      let lowered := (lowerBody source (·.fills "body") number opened below).getD
        (lowerMembers source number number opened below)
      lowerMembers source parent target lowered rest
    | .usingDirective =>
      match c.usingDeclaration? source with
      | some d => lowerMembers source parent target (done ++ [.ofMember ⟨d, target⟩]) rest
      | none => lowerMembers source parent target done rest
    | .typeDeclaration =>
      let opened := done ++ [.ofMember ⟨c.typeDeclaration source, target⟩]
      let lowered :=
        if c.typeForm = .enumType then opened
        else
          ((lowerBody source (·.fills "body") number opened below).or
            (lowerBody source (·.isNamed "declaration_list") number opened below)).getD opened
      lowerMembers source parent target lowered rest
    | .methodDeclaration =>
      lowerMembers source parent target
        (done ++ [.ofMember ⟨c.methodDeclaration source, target⟩]) rest
    | .preprocessor =>
      lowerMembers source parent target (lowerMembers source target target done below) rest
    | .otherDeclaration =>
      lowerMembers source parent target
        (done ++ [.ofMember ⟨c.otherDeclaration source, target⟩]) rest
    | .ignored => lowerMembers source parent target done rest

/-- The pushes of the first node that is taken for the body, if there is one. -/
def lowerBody (source : String) (isBody : ConcreteNode → Bool) (number : Nat) (done : List Push) :
    Forest ConcreteNode → Option (List Push)
  | .nil => none
  | .cons node below rest =>
    if isBody node then some (lowerMembers source number number done below)
    else lowerBody source isBody number done rest

end

/-- The pushes of a file, below the compilation unit. -/
def pushes (source : String) (c : Concrete) : List Push := lowerMembers source 0 0 [] c.below

variable {source : String} {c : Concrete} {node : ConcreteNode} {below rest : Forest ConcreteNode}
  {parent target : Nat} {done : List Push}

/-- The pushes of a body are those of the first child that is taken for it. -/
theorem lowerBody_eq (source : String) (isBody : ConcreteNode → Bool) (number : Nat)
    (done : List Push) (c : Concrete) :
    lowerBody source isBody number done c.below =
      (c.children.find? (isBody ·.node)).map fun b =>
        lowerMembers source number number done b.below :=
  search_eq_find? (by rw [lowerBody]) (fun node below rest => by rw [lowerBody]) c

/-- The pushes of the body of a namespace, or of the namespace without a body. -/
theorem lowerNamespace_eq (source : String) (number : Nat) (done : List Push) (c : Concrete) :
    (lowerBody source (·.fills "body") number done c.below).getD
        (lowerMembers source number number done c.below) =
      lowerMembers source number number done ((c.field? "body").getD c).below := by
  have hbody : lowerBody source (·.fills "body") number done c.below =
      (c.field? "body").map fun b => lowerMembers source number number done b.below :=
    lowerBody_eq source _ number done c
  rw [hbody]
  cases c.field? "body" <;> rfl

/-- The pushes of the body of a type, if it has one. -/
theorem lowerType_eq (source : String) (number : Nat) (done : List Push) (c : Concrete) :
    ((lowerBody source (·.fills "body") number done c.below).or
        (lowerBody source (·.isNamed "declaration_list") number done c.below)).getD done =
      (((c.field? "body").or (c.namedChild? "declaration_list")).map
        fun b => lowerMembers source number number done b.below).getD done := by
  have hbody : lowerBody source (·.fills "body") number done c.below =
      (c.field? "body").map fun b => lowerMembers source number number done b.below :=
    lowerBody_eq source _ number done c
  have hlist : lowerBody source (·.isNamed "declaration_list") number done c.below =
      (c.namedChild? "declaration_list").map fun b =>
        lowerMembers source number number done b.below :=
    lowerBody_eq source _ number done c
  rw [hbody, hlist, Option.map_or]

/-- The pushes of what a member opens, below the node with the given number. -/
def lowerOpened (source : String) (number : Nat) (done : List Push) (c : Concrete) : List Push :=
  (c.opened?.map fun b => lowerMembers source number number done b.below).getD done

/-- The pushes of a member. -/
def lowerMember (source : String) (target : Nat) (done : List Push) (c : Concrete) : List Push :=
  match c.declared? source with
  | some d => c.lowerOpened source (done.length + 1) (done ++ [.ofMember ⟨d, target⟩])
  | none => c.lowerOpened source target done

/-- A file-scoped namespace goes below the parent and becomes the target. -/
theorem lowerMembers_cons_of_fileScoped (hrole : node.role = .fileScopedNamespace) :
    lowerMembers source parent target done (.cons node below rest) =
      lowerMembers source parent (done.length + 1)
        (lowerMember source parent done ⟨node, below⟩) rest := by
  have hnamespace (number : Nat) (done : List Push) :=
    lowerNamespace_eq source number done ⟨node, below⟩
  rw [lowerMembers]
  simp only [lowerMember, lowerOpened, declared?, opened?, hrole, hnamespace, Option.map_some,
    Option.getD_some]

/-- Any other member goes below the target and leaves it. -/
theorem lowerMembers_cons_of_not_fileScoped (hrole : node.role ≠ .fileScopedNamespace) :
    lowerMembers source parent target done (.cons node below rest) =
      lowerMembers source parent target (lowerMember source target done ⟨node, below⟩) rest := by
  have hnamespace (number : Nat) (done : List Push) :=
    lowerNamespace_eq source number done ⟨node, below⟩
  have htype (number : Nat) (done : List Push) := lowerType_eq source number done ⟨node, below⟩
  unfold lowerMember lowerOpened opened? declared?
  rw [lowerMembers]
  cases hkind : node.role with
  | fileScopedNamespace => exact absurd hkind hrole
  | namespaceBlock => simp [hnamespace]
  | usingDirective =>
    simp only
    cases (⟨node, below⟩ : Concrete).usingDeclaration? source <;> rfl
  | typeDeclaration =>
    simp only
    by_cases henum : (⟨node, below⟩ : Concrete).typeForm = .enumType
    · simp [henum]
    · simp [henum, htype]
  | methodDeclaration | preprocessor | otherDeclaration | ignored => rfl

/-- The pushes of a sequence of nodes are those of its forest. What belongs to the sequence itself
goes below the target, and the file-scoped namespaces with what they adopt go below the parent. -/
def LoweredInOrder (source : String) (f : Forest ConcreteNode) : Prop :=
  ∀ parent target done, lowerMembers source parent target done f =
    done ++ (pushesBelow (done.length + 1) target (members source f).own ++
      pushesBelow (done.length + 1 + (members source f).own.size) parent
        (members source f).adopting)

/-- Where the target starts at the parent, a single forest is put in. -/
theorem LoweredInOrder.all {f : Forest ConcreteNode} (h : LoweredInOrder source f) (number : Nat)
    (done : List Push) :
    lowerMembers source number number done f =
      done ++ pushesBelow (done.length + 1) number (members source f).all := by
  rw [h, Members.all, pushesBelow_append]

section

variable (hopened : ∀ b, c.opened? = some b → LoweredInOrder source b.below)
include hopened

/-- What a member opens is put in as its forest says. -/
theorem lowerOpened_eq (number : Nat) (done : List Push) :
    c.lowerOpened source number done =
      done ++ pushesBelow (done.length + 1) number (c.openedMembers source) := by
  unfold lowerOpened openedMembers
  cases hb : c.opened? with
  | none => exact (List.append_nil done).symm
  | some b => exact (hopened b hb).all number done

/-- A member is put in as its forest says. -/
theorem lowerMember_eq (target : Nat) (done : List Push) :
    c.lowerMember source target done =
      done ++ pushesBelow (done.length + 1) target (c.contribution source) := by
  unfold lowerMember contribution
  cases c.declared? source with
  | none => exact lowerOpened_eq hopened target done
  | some d =>
    dsimp only
    rw [lowerOpened_eq hopened, List.length_append, List.length_singleton, List.append_assoc,
      pushesBelow_cons_nil]
    rfl

end

/-- All nodes are gone through in the order of their forest. -/
theorem loweredInOrder (source : String) (f : Forest ConcreteNode) : LoweredInOrder source f := by
  induction f using Forest.two_level_induction with
  | nil => exact fun parent target done => (List.append_nil done).symm
  | cons node below rest ihBelow ihFurther ihRest =>
    intro parent target done
    have hopened : ∀ b, (⟨node, below⟩ : Concrete).opened? = some b →
        LoweredInOrder source b.below := by
      intro b hb
      rcases opened?_eq_some hb with rfl | hchild
      · exact ihBelow
      · obtain ⟨t, ht, rfl⟩ := List.mem_map.mp hchild
        exact ihFurther t ht
    by_cases hrole : node.role = .fileScopedNamespace
    · -- The followers are put in right behind what the namespace opens, and below it as well.
      have hcontribution : (⟨node, below⟩ : Concrete).contribution source =
          .cons ((⟨node, below⟩ : Concrete).namespaceDeclaration source)
            ((⟨node, below⟩ : Concrete).openedMembers source) .nil := by
        simp only [contribution, declared?, hrole]
      have hnumber (opened : Forest Declaration) (d : Declaration) :
          done.length + (Forest.cons d opened .nil).size + 1 =
            done.length + 1 + 1 + opened.size := by
        rw [Forest.size, Forest.size]
        omega
      rw [lowerMembers_cons_of_fileScoped hrole, ihRest, lowerMember_eq hopened, hcontribution,
        members_cons_of_fileScoped hrole, List.length_append, length_pushesBelow, hnumber,
        List.append_assoc]
      exact congrArg (done ++ ·) (pushesBelow_cons_append _ _ _ _ _).symm
    · have hnumber (size : Nat) : done.length + size + 1 = done.length + 1 + size := by omega
      rw [lowerMembers_cons_of_not_fileScoped hrole, ihRest, lowerMember_eq hopened,
        members_cons_of_not_fileScoped hrole]
      dsimp only [Members.after]
      rw [pushesBelow_append, Forest.size_append, List.length_append, length_pushesBelow, hnumber,
        Nat.add_assoc (done.length + 1), List.append_assoc, List.append_assoc]

-- The first class goes below the namespace in the block, the other one below that of the file.
example :
    let file := branch "compilation_unit" 0 6
      [branch "file_scoped_namespace_declaration" 0 1 [],
        branch "preproc_if" 1 4
          [branch "file_scoped_namespace_declaration" 2 3 [], branch "class_declaration" 3 4 []],
        branch "class_declaration" 5 6 []]
    (file.pushes "").map (·.parent) = [0, 1, 2, 1] := by decide +kernel

end Concrete

namespace Tree

/-- The pushes of a file are the members of its declaration tree, in the order of their numbers. -/
theorem pushes_eq_members (file : FileId) (source : String) (c : Concrete) :
    c.pushes source = (ofConcrete file source c).members.toList.map .ofMember := by
  rw [ofConcrete, members_ofForest]
  exact (Concrete.loweredInOrder source c.below).all 0 []

/-- The declaration tree of a file is made by the pushes of the file, in their order: with links
to parents only, and with both links of every node written down. A walk shows the declarations in
the order in which they were put in. -/
theorem ofConcrete_eq_build (file : FileId) (source : String) (c : Concrete) :
    ofConcrete file source c = build file c.node.span (c.pushes source) ∧
      (ofConcrete file source c).linked = LinkedTree.build c.node.span (c.pushes source) ∧
      (ofConcrete file source c).descendants.map (ofConcrete file source c).declaration =
        { kind := .compilationUnit, span := c.node.span } ::
          (c.pushes source).map (·.node.declaration) := by
  have hpushes := pushes_eq_members file source c
  have hbuild : build file c.node.span (c.pushes source) = ofConcrete file source c := by
    rw [hpushes, ofConcrete, members_ofForest]
    exact foldl_put_pushesBelow rfl (empty file c.node.span).root _
  refine ⟨hbuild.symm, ?_, ?_⟩
  · have hearlier : ∀ k (hk : k < (c.pushes source).length),
        (c.pushes source)[k].parent ≤ k ∧ (c.pushes source)[k].node.children = [] := by
      intro k hk
      simp only [hpushes, List.length_map, Array.length_toList] at hk
      simp only [hpushes, List.getElem_map, Array.getElem_toList]
      exact ⟨(ofConcrete file source c).parent_le k hk, rfl⟩
    rw [← (linked_build file c.node.span (c.pushes source) hearlier).1, hbuild]
  · have hlabels := declarations_graft (empty file c.node.span) (empty file c.node.span).root
      (Concrete.members source c.below).all
    rw [hpushes, List.map_map]
    exact (declarations_ofForest file c.node.span _).trans (congrArg _ hlabels.symm)

end Tree

end StubGen

import Mathlib.Data.List.Induction
import StubGen.Proofs.Tree.Building

/-!
# Links in both directions

A tree can also be kept with both links of every node written down. Putting in a node then takes
two writes: the node comes with its link upwards, and the node above gets one more link
downwards. Whatever the order in which nodes are put below earlier ones, the links agree, and
they are the parents and children of the tree that records parents only.

So everything that climbs from a node comes to an end: numbers go down along the links upwards,
to the compilation unit.
-/

namespace StubGen

/-- A node with its links, by the numbers of the other nodes. -/
structure LinkedNode where
  declaration : Declaration
  parent : Option Nat := none
  children : List Nat := []
deriving DecidableEq, Repr, Inhabited

/-- Nodes by their numbers, linked in both directions. -/
@[ext] structure LinkedTree where
  nodes : Array LinkedNode
deriving DecidableEq, Repr, Inhabited

/-- A node that is to be put below the node with the given number. -/
structure Push where
  parent : Nat
  node : LinkedNode
deriving DecidableEq, Repr, Inhabited

namespace LinkedTree

/-- The number of nodes. -/
def size (t : LinkedTree) : Nat := t.nodes.size

/-- The link of a node upwards. -/
def parent? (t : LinkedTree) (i : Nat) : Option Nat := t.nodes[i]?.bind (·.parent)

/-- The links of a node downwards. -/
def children (t : LinkedTree) (i : Nat) : List Nat := (t.nodes[i]?.map (·.children)).getD []

/-- The compilation unit alone. -/
def unit (span : Span) : LinkedTree :=
  ⟨#[{ declaration := { kind := .compilationUnit, span := span } }]⟩

/-- Puts in a node with its link upwards, and then links it downwards as the last child. What the
node itself has for a link upwards is overwritten. -/
def push (t : LinkedTree) (p : Push) : LinkedTree where
  nodes := (t.nodes.push { p.node with parent := some p.parent }).modify p.parent fun above =>
    { above with children := above.children ++ [t.size] }

/-- The tree after a sequence of pushes. -/
def build (span : Span) (pushes : List Push) : LinkedTree := pushes.foldl push (unit span)

/-- The nodes that are met on the way up along the links, up to one without a link. -/
inductive Climbs (t : LinkedTree) : Nat → List Nat → Prop
  | top {i : Nat} (h : t.parent? i = none) : Climbs t i []
  | up {i p : Nat} {chain : List Nat} (h : t.parent? i = some p) (hrest : Climbs t p chain) :
      Climbs t i (p :: chain)

/-- The links of a tree agree and lead to the compilation unit, which is node 0. -/
structure WellLinked (t : LinkedTree) : Prop where
  root_parent : t.parent? 0 = none
  root_child : ∀ p, 0 ∉ t.children p
  /-- Any other node has one parent, before it, and is a child of that node alone, once. -/
  member : ∀ i, 0 < i → i < t.size → ∃ p < i, t.parent? i = some p ∧
    (t.children p).count i = 1 ∧ ∀ q ≠ p, i ∉ t.children q
  increasing : ∀ p, (t.children p).Pairwise (· < ·)
  agree : ∀ i p, t.parent? i = some p ↔ i ∈ t.children p
  /-- There is one way up from a node. It goes down in numbers and ends at node 0. -/
  climb : ∀ i < t.size, ∃ chain, (∀ other, t.Climbs i other ↔ other = chain) ∧
    (i :: chain).Pairwise (· > ·) ∧ (i :: chain).Nodup ∧ (i :: chain).getLast? = some 0

end LinkedTree

namespace Tree

variable {t : Tree} {parent i : Fin t.size} {d : Declaration}

/-- A node with both its links. -/
def linkedNode (t : Tree) (i : Fin t.size) : LinkedNode where
  declaration := t.declaration i
  parent := (t.parent i).map (·.val)
  children := (t.children i).map (·.val)

/-- The tree with both links of every node written down. -/
def linked (t : Tree) : LinkedTree := ⟨Array.ofFn t.linkedNode⟩

/-- The tree after a sequence of pushes, of which those below a node that does not exist have no
effect. -/
def build (file : FileId) (span : Span) (pushes : List Push) : Tree :=
  pushes.foldl (fun t p =>
    if h : p.parent < t.size then t.push ⟨p.parent, h⟩ p.node.declaration else t) (empty file span)

/-- The parent of a node as a number. -/
theorem map_val_parent (i : Fin t.size) : (t.parent i).map (·.val) = t.parentNumber? i.val := by
  cases hp : t.parent i with
  | none =>
    rw [parent_eq_none_iff.mp hp]
    rfl
  | some p => exact (parent_eq_some_iff_number.mp hp).symm

/-- A push leaves the declarations of the nodes before it. -/
theorem declaration_push_kept (i : Fin t.size) :
    (t.push parent d).declaration (t.kept parent d i) = t.declaration i := by
  unfold declaration
  by_cases hi : i.val = 0
  · rw [dif_pos (show (t.kept parent d i).val = 0 from hi), dif_pos hi]
    rfl
  · rw [dif_neg (show (t.kept parent d i).val ≠ 0 from hi), dif_neg hi]
    have hlt : i.val - 1 < t.members.size := by
      have := i.isLt
      simp only [size] at this
      omega
    exact congrArg Member.declaration (Array.getElem_push_lt hlt)

/-- A push adds its declaration. -/
theorem declaration_push_pushed : (t.push parent d).declaration (t.pushed parent d) = d := by
  have hne : (t.pushed parent d).val ≠ 0 := Nat.succ_ne_zero _
  rw [declaration, dif_neg hne]
  exact congrArg Member.declaration Array.getElem_push_eq

/-- A push links the new node as the last child of its parent and changes no other link. -/
theorem linkedNode_push_kept (i : Fin t.size) :
    (t.push parent d).linkedNode (t.kept parent d i) =
      { t.linkedNode i with
        children := (t.linkedNode i).children ++ if i = parent then [t.size] else [] } := by
  have hparent : ((t.push parent d).parent (t.kept parent d i)).map (·.val) =
      (t.parent i).map (·.val) := by
    rw [map_val_parent, map_val_parent]
    exact (parentNumber?_push i.val).trans (if_neg (Nat.ne_of_lt i.isLt))
  simp only [linkedNode, declaration_push_kept, hparent, children_push_kept]

/-- The new node has its link upwards and none downwards. -/
theorem linkedNode_push_pushed :
    (t.push parent d).linkedNode (t.pushed parent d) = ⟨d, some parent.val, []⟩ := by
  have hparent : ((t.push parent d).parent (t.pushed parent d)).map (·.val) = some parent.val := by
    rw [map_val_parent]
    exact (parentNumber?_push t.size).trans (if_pos rfl)
  simp only [linkedNode, declaration_push_pushed, hparent, children_push_pushed, List.map_nil]

/-- Writing down both links adds no node. -/
@[simp] theorem size_linked (t : Tree) : t.linked.size = t.size := Array.size_ofFn

/-- The nodes of a tree with both links. -/
theorem getElem?_linked (k : Nat) :
    t.linked.nodes[k]? = if h : k < t.size then some (t.linkedNode ⟨k, h⟩) else none :=
  Array.getElem?_ofFn

/-- Two writes put in a node as a push does. -/
theorem linked_push (t : Tree) (parent : Fin t.size) {node : LinkedNode}
    (hdetached : node.children = []) :
    (t.push parent node.declaration).linked = t.linked.push ⟨parent.val, node⟩ := by
  have hsize : t.linked.nodes.size = t.size := t.size_linked
  have hpushed : (t.push parent node.declaration).size = t.size + 1 := size_push t parent _
  refine LinkedTree.ext (Array.ext_getElem? fun k => ?_)
  rw [getElem?_linked, LinkedTree.push, Array.getElem?_modify, Array.getElem?_push,
    LinkedTree.size, hsize, getElem?_linked]
  rcases Nat.lt_trichotomy k t.size with hlt | rfl | hgt
  · -- A node that was there before has one more link downwards if it is the parent.
    have hkept : (t.push parent node.declaration).linkedNode
        (t.kept parent node.declaration ⟨k, hlt⟩) = _ := linkedNode_push_kept _
    rw [dif_pos (by omega), if_neg (Nat.ne_of_lt hlt), dif_pos hlt]
    refine (congrArg some hkept).trans ?_
    by_cases hparent : parent.val = k
    · rw [if_pos hparent, if_pos (Fin.ext hparent.symm)]
      rfl
    · rw [if_neg hparent, if_neg (fun h => hparent (congrArg Fin.val h).symm), List.append_nil]
  · have hnew : (t.push parent node.declaration).linkedNode
        (t.pushed parent node.declaration) = _ := linkedNode_push_pushed
    rw [dif_pos (by omega), if_neg (Nat.ne_of_lt parent.isLt), if_pos rfl]
    refine (congrArg some hnew).trans ?_
    rw [← hdetached]
  · have hparent := parent.isLt
    rw [dif_neg (by omega), if_neg (show parent.val ≠ k by omega), if_neg (by omega),
      dif_neg (by omega)]

/-- A sequence of pushes can be done in two writes each. -/
theorem linked_build (file : FileId) (span : Span) (pushes : List Push)
    (h : ∀ k (hk : k < pushes.length),
      pushes[k].parent ≤ k ∧ pushes[k].node.children = []) :
    (build file span pushes).linked = LinkedTree.build span pushes ∧
      (build file span pushes).size = pushes.length + 1 := by
  induction pushes using List.reverseRecOn with
  | nil => exact ⟨rfl, rfl⟩
  | append_singleton pushes p ih =>
    have hearlier : ∀ k (hk : k < pushes.length),
        pushes[k].parent ≤ k ∧ pushes[k].node.children = [] := by
      intro k hk
      have hpush := h k (by rw [List.length_append]; omega)
      rwa [List.getElem_append_left hk] at hpush
    obtain ⟨hlinked, hsize⟩ := ih hearlier
    have hlast := h pushes.length (by simp)
    rw [List.getElem_concat_length rfl] at hlast
    obtain ⟨hparent, hdetached⟩ := hlast
    have hlt : p.parent < (build file span pushes).size := by omega
    have hbuild : build file span (pushes ++ [p]) =
        (build file span pushes).push ⟨p.parent, hlt⟩ p.node.declaration := by
      rw [build, List.foldl_append]
      exact dif_pos hlt
    constructor
    · rw [hbuild, linked_push _ _ hdetached, hlinked, LinkedTree.build, LinkedTree.build,
        List.foldl_append]
      rfl
    · rw [hbuild, size_push, hsize, List.length_append, List.length_singleton]

section WellLinked

/-- A node with a parent comes after it, and there is such a node. -/
theorem lt_of_parentNumber? {k p : Nat} (h : t.parentNumber? k = some p) : p < k ∧ k < t.size := by
  cases k with
  | zero => simp [parentNumber?] at h
  | succ k =>
    obtain ⟨m, hm, rfl⟩ := Option.map_eq_some_iff.mp h
    obtain ⟨hk, rfl⟩ := Array.getElem?_eq_some_iff.mp hm
    exact ⟨Nat.lt_succ_of_le (t.parent_le k hk), Nat.succ_lt_succ hk⟩

/-- The link of a node upwards. -/
theorem parent?_linked (k : Nat) : t.linked.parent? k = t.parentNumber? k := by
  rw [LinkedTree.parent?, getElem?_linked]
  by_cases hk : k < t.size
  · rw [dif_pos hk]
    exact map_val_parent ⟨k, hk⟩
  · rw [dif_neg hk, eq_comm]
    exact Option.eq_none_iff_forall_ne_some.mpr fun p hp => hk (lt_of_parentNumber? hp).2

/-- The links of a node downwards. -/
theorem children_linked (k : Nat) :
    t.linked.children k = (List.range t.size).filter fun i => t.parentNumber? i = some k := by
  rw [LinkedTree.children, getElem?_linked]
  by_cases hk : k < t.size
  · rw [dif_pos hk]
    exact map_val_children ⟨k, hk⟩
  · rw [dif_neg hk, eq_comm]
    refine List.filter_eq_nil_iff.mpr fun i _ hi => ?_
    have := lt_of_parentNumber? (of_decide_eq_true hi)
    omega

/-- The links in both directions agree. -/
theorem mem_children_linked {i p : Nat} :
    i ∈ t.linked.children p ↔ t.linked.parent? i = some p := by
  rw [children_linked, parent?_linked, List.mem_filter, List.mem_range, decide_eq_true_iff]
  exact and_iff_right_of_imp fun h => (lt_of_parentNumber? h).2

/-- The way up from a node leads through the nodes above it. -/
theorem climbs_linked_iff {chain : List Nat} :
    t.linked.Climbs i.val chain ↔ chain = (t.ancestors i).map (·.val) := by
  induction i using parent_induction generalizing chain with
  | root i hp =>
    have hnone : t.linked.parent? i.val = none := by
      rw [parent?_linked, ← map_val_parent, hp, Option.map_none]
    rw [ancestors_of_parent_none hp, List.map_nil]
    constructor
    · intro h
      cases h with
      | top => rfl
      | up h => simp [hnone] at h
    · rintro rfl
      exact .top hnone
  | child i p hp ih =>
    have hsome : t.linked.parent? i.val = some p.val := by
      rw [parent?_linked, ← map_val_parent, hp, Option.map_some]
    rw [ancestors_of_parent hp, List.map_cons]
    constructor
    · intro h
      cases h with
      | top h => simp [hsome] at h
      | up h hrest =>
        obtain rfl := Option.some.inj (hsome.symm.trans h)
        rw [ih.mp hrest]
    · rintro rfl
      exact .up hsome (ih.mpr rfl)

/-- The numbers go down on the way up. -/
theorem ancestors_pairwise (i : Fin t.size) : (i :: t.ancestors i).Pairwise (· > ·) := by
  induction i using parent_induction with
  | root i hp =>
    rw [ancestors_of_parent_none hp]
    exact List.pairwise_singleton _ _
  | child i p hp ih =>
    rw [List.pairwise_cons]
    refine ⟨fun j hj => lt_of_mem_ancestors hj, ?_⟩
    rw [ancestors_of_parent hp]
    exact ih

/-- The way up ends at the compilation unit. -/
theorem getLast?_ancestors (i : Fin t.size) : (i :: t.ancestors i).getLast? = some t.root := by
  induction i using parent_induction with
  | root i hp =>
    rw [ancestors_of_parent_none hp, show i = t.root from Fin.ext (parent_eq_none_iff.mp hp)]
    rfl
  | child i p hp ih => rw [ancestors_of_parent hp, List.getLast?_cons_cons, ih]

/-- The links of a tree with both of them agree and lead to the compilation unit. -/
theorem wellLinked_linked (t : Tree) : t.linked.WellLinked where
  root_parent := parent?_linked 0
  root_child := by
    intro p hp
    rw [mem_children_linked, parent?_linked] at hp
    exact absurd hp (by simp [parentNumber?])
  member := by
    intro i hi hsize
    rw [size_linked] at hsize
    obtain ⟨p, hp⟩ : ∃ p, t.parent ⟨i, hsize⟩ = some p :=
      Option.ne_none_iff_exists'.mp (mt parent_eq_none_iff.mp (Nat.ne_of_gt hi))
    have hlink : t.linked.parent? i = some p.val :=
      (parent?_linked i).trans (parent_eq_some_iff_number.mp hp)
    have hnodup : (t.linked.children p.val).Nodup := by
      rw [children_linked]
      exact List.nodup_range.filter _
    refine ⟨p.val, parent_lt hp, hlink,
      List.count_eq_one_of_mem hnodup (mem_children_linked.mpr hlink), fun q hq hmem => ?_⟩
    exact hq (Option.some.inj ((mem_children_linked.mp hmem).symm.trans hlink))
  increasing := by
    intro p
    rw [children_linked]
    exact List.pairwise_lt_range.filter _
  agree := fun i p => mem_children_linked.symm
  climb := by
    intro i hi
    rw [size_linked] at hi
    have hdown : ((⟨i, hi⟩ :: t.ancestors ⟨i, hi⟩).map Fin.val).Pairwise (· > ·) :=
      (ancestors_pairwise ⟨i, hi⟩).map Fin.val fun _ _ h => h
    have hlast := congrArg (Option.map (·.val)) (t.getLast?_ancestors ⟨i, hi⟩)
    rw [← List.getLast?_map] at hlast
    exact ⟨_, fun other => climbs_linked_iff (i := ⟨i, hi⟩), hdown, hdown.imp Nat.ne_of_gt, hlast⟩

end WellLinked

end Tree

namespace LinkedTree

/-- Any sequence of pushes below existing nodes, of nodes that come without links downwards, makes
a tree whose links agree and lead to the compilation unit. It is the tree that records parents
only, with both links written down, and the ways up are through the ancestors there. -/
theorem build_wellLinked (file : FileId) (span : Span) (pushes : List Push)
    (h : ∀ k (hk : k < pushes.length),
      pushes[k].parent ≤ k ∧ pushes[k].node.children = []) :
    (build span pushes).WellLinked ∧ (build span pushes).size = pushes.length + 1 ∧
      build span pushes = (Tree.build file span pushes).linked ∧
      ∀ (i : Fin (Tree.build file span pushes).size) (chain : List Nat),
        (build span pushes).Climbs i.val chain ↔
          chain = ((Tree.build file span pushes).ancestors i).map (·.val) := by
  obtain ⟨hlinked, hsize⟩ := Tree.linked_build file span pushes h
  rw [← hlinked, Tree.size_linked]
  exact ⟨Tree.wellLinked_linked _, hsize, rfl, fun i chain => Tree.climbs_linked_iff⟩

/-- Types and methods put in turn below two namespaces. One of them comes with a link upwards that
is not kept. -/
def interleavedPushes : List Push :=
  let node (kind : Declaration.Kind) (name : String) (parent : Option Nat := none) : LinkedNode :=
    { declaration := { kind := kind, name := name }, parent := parent }
  [⟨0, node .namespaceDeclaration "A"⟩, ⟨0, node .namespaceDeclaration "B"⟩,
    ⟨1, node (.typeDeclaration .classType) "C" (some 7)⟩,
    ⟨2, node (.typeDeclaration .classType) "D"⟩, ⟨3, node .methodDeclaration "M"⟩,
    ⟨1, node (.typeDeclaration .structType) "E"⟩, ⟨3, node .methodDeclaration "N"⟩]

/-- After these pushes the links agree, and there is one way up from the last method. -/
theorem build_wellLinked_interleaved :
    (∀ k (hk : k < interleavedPushes.length),
      interleavedPushes[k].parent ≤ k ∧ interleavedPushes[k].node.children = []) ∧
      (build {} interleavedPushes).WellLinked ∧
      (build {} interleavedPushes).children 1 = [3, 6] ∧
      (build {} interleavedPushes).children 3 = [5, 7] ∧
      (build {} interleavedPushes).Climbs 7 [3, 1, 0] := by
  have hpushes : ∀ k (hk : k < interleavedPushes.length),
      interleavedPushes[k].parent ≤ k ∧ interleavedPushes[k].node.children = [] := by
    decide
  obtain ⟨hlinked, -⟩ := build_wellLinked ⟨0⟩ {} interleavedPushes hpushes
  have hway : (build {} interleavedPushes).Climbs 7 [3, 1, 0] :=
    .up (by decide) (.up (by decide) (.up (by decide) (.top (by decide))))
  exact ⟨hpushes, hlinked, by decide, by decide, hway⟩

end LinkedTree

end StubGen

import StubGen.Proofs.Concrete.Members
import StubGen.Proofs.Tree.Building

/-!
# Concrete trees and their declaration trees

The declaration tree of a file has, below the compilation unit, one node for each kept node
of the concrete tree, in the order of the text and at the same places. Its nodes are
numbered in that order.

The concrete tree is arbitrary: nothing is assumed about the nesting of kinds, about error
nodes or about the ranges of the nodes.
-/

namespace StubGen

namespace Concrete

/-- A list of the nodes that have a property, by their positions and in the order of the
text. -/
structure Lists (holds : List Nat → Concrete → Prop) (list : List (List Nat × Concrete)) :
    Prop where
  sorted : list.Pairwise fun first second => first.1 < second.1
  mem_iff : ∀ position d, (position, d) ∈ list ↔ holds position d

namespace Lists

variable {holds holds' : List Nat → Concrete → Prop} {list list' : List (List Nat × Concrete)}

/-- Where nothing has the property the list is empty. -/
theorem nil (h : ∀ position d, ¬ holds position d) : Lists holds [] where
  sorted := .nil
  mem_iff position d := by
    constructor
    · intro hmem
      exact absurd hmem List.not_mem_nil
    · intro hholds
      exact absurd hholds (h position d)

/-- The list of a single node. -/
theorem singleton (position : List Nat) (d : Concrete) :
    Lists (fun other e => other = position ∧ e = d) [(position, d)] where
  sorted := List.pairwise_singleton _ _
  mem_iff other e := by
    rw [List.mem_singleton, Prod.mk.injEq]

/-- The list goes by the property. -/
theorem congr (h : Lists holds list) (hiff : ∀ position d, holds position d ↔ holds' position d) :
    Lists holds' list where
  sorted := h.sorted
  mem_iff position d := (h.mem_iff position d).trans (hiff position d)

/-- Two lists of which the second stands later in the text. -/
theorem append (h : Lists holds list) (h' : Lists holds' list')
    (hlt : ∀ position d position' d', holds position d → holds' position' d' →
      position < position') :
    Lists (fun position d => holds position d ∨ holds' position d) (list ++ list') where
  sorted := by
    rw [List.pairwise_append]
    refine ⟨h.sorted, h'.sorted, ?_⟩
    intro first hfirst second hsecond
    exact hlt _ _ _ _ ((h.mem_iff _ _).mp hfirst) ((h'.mem_iff _ _).mp hsecond)
  mem_iff position d := by
    rw [List.mem_append, h.mem_iff, h'.mem_iff]

/-- The positions of a list seen from further up. -/
theorem map (h : Lists holds list) (move : List Nat → List Nat)
    (hlt : ∀ position d position' d', holds position d → holds position' d' →
      position < position' → move position < move position') :
    Lists (fun position d => ∃ below, position = move below ∧ holds below d)
      (list.map fun entry => (move entry.1, entry.2)) where
  sorted := by
    rw [List.pairwise_map]
    refine h.sorted.imp_of_mem ?_
    intro first second hfirst hsecond hlt'
    exact hlt _ _ _ _ ((h.mem_iff _ _).mp hfirst) ((h.mem_iff _ _).mp hsecond) hlt'
  mem_iff position d := by
    rw [List.mem_map]
    constructor
    · intro hmem
      obtain ⟨⟨below, e⟩, hentry, heq⟩ := hmem
      obtain ⟨rfl, rfl⟩ := Prod.mk.inj heq
      exact ⟨below, rfl, (h.mem_iff below e).mp hentry⟩
    · intro hholds
      obtain ⟨below, rfl, hbelow⟩ := hholds
      exact ⟨(below, d), (h.mem_iff below d).mpr hbelow, rfl⟩

end Lists

variable {c d : Concrete} {source : String} {position : List Nat}

/-- The nodes found at a member: the member itself and the members of what it opens. -/
def Finds (c : Concrete) (position : List Nat) (d : Concrete) : Prop :=
  c.node.named = true ∧ (position = [] ∧ d = c ∨
    ∃ via b path, c.Opens via b ∧ position = via ++ path ∧ b.HasMember path d)

/-- A member stands at or below a child. -/
theorem hasMember_iff :
    c.HasMember position d ↔
      ∃ k path e, position = k :: path ∧ c.children[k]? = some e ∧ e.Finds path d := by
  constructor
  · intro h
    cases h with
    | child hchild hnamed => exact ⟨_, _, _, rfl, hchild, hnamed, Or.inl ⟨rfl, rfl⟩⟩
    | inside hchild hnamed hopens hmember =>
      exact ⟨_, _, _, rfl, hchild, hnamed, Or.inr ⟨_, _, _, hopens, rfl, hmember⟩⟩
  · intro h
    obtain ⟨k, path, e, rfl, hchild, hnamed, hfinds⟩ := h
    rcases hfinds with ⟨rfl, rfl⟩ | ⟨via, b, path, hopens, rfl, hmember⟩
    · exact .child hchild hnamed
    · exact .inside hchild hnamed hopens hmember

/-- A member does not stand where its container does. -/
theorem HasMember.ne_nil (h : c.HasMember position d) : position ≠ [] := by
  cases h <;> simp

/-- The position of a node as seen from a sequence with one more node at the front. -/
def nextPosition : List Nat → List Nat
  | [] => []
  | k :: path => (k + 1) :: path

/-- Positions keep their order behind one more node. -/
theorem nextPosition_lt {position' : List Nat} (h : position < position') :
    nextPosition position < nextPosition position' := by
  cases position with
  | nil =>
    cases position' with
    | nil => simp at h
    | cons k path => exact List.nil_lt_cons _ _
  | cons j path =>
    cases position' with
    | nil => simp at h
    | cons k path' => simpa [nextPosition, List.cons_lt_cons_iff] using h

/-- What is found at the first node stands before the rest. -/
theorem zero_cons_lt_nextPosition (path : List Nat) (h : position ≠ []) :
    0 :: path < nextPosition position := by
  cases position with
  | nil => exact absurd rfl h
  | cons k rest => simp [nextPosition, List.cons_lt_cons_iff]

/-- The members of a sequence of nodes are those found at its first node and those of the
rest. -/
theorem hasMember_cons {unit node : ConcreteNode} {below rest : Forest ConcreteNode} :
    (⟨unit, .cons node below rest⟩ : Concrete).HasMember position d ↔
      (∃ path, position = 0 :: path ∧ (⟨node, below⟩ : Concrete).Finds path d) ∨
        ∃ path, position = nextPosition path ∧ (⟨unit, rest⟩ : Concrete).HasMember path d := by
  have hchildren : (⟨unit, .cons node below rest⟩ : Concrete).children =
      ⟨node, below⟩ :: (⟨unit, rest⟩ : Concrete).children := rfl
  constructor
  · intro h
    obtain ⟨k, path, e, rfl, hchild, hfinds⟩ := hasMember_iff.mp h
    rw [hchildren] at hchild
    cases k with
    | zero =>
      obtain rfl := Option.some.inj hchild
      exact Or.inl ⟨path, rfl, hfinds⟩
    | succ k =>
      exact Or.inr ⟨k :: path, rfl, hasMember_iff.mpr ⟨k, path, e, rfl, hchild, hfinds⟩⟩
  · intro h
    rcases h with ⟨path, rfl, hfinds⟩ | ⟨path, rfl, hmember⟩
    · exact hasMember_iff.mpr ⟨0, path, _, rfl, rfl, hfinds⟩
    · obtain ⟨k, path, e, rfl, hchild, hfinds⟩ := hasMember_iff.mp hmember
      exact hasMember_iff.mpr ⟨k + 1, path, e, rfl, hchild, hfinds⟩

/-- The kept nodes of a list account for a list of declarations, one by one. -/
def Declares (source : String) (kept : List (List Nat × Concrete))
    (declarations : List Declaration) : Prop :=
  declarations.map some = kept.map fun entry => entry.2.declared? source

section Declares

variable {kept kept' : List (List Nat × Concrete)} {found found' : List Declaration}

/-- Lists of declarations are accounted for part by part. -/
theorem Declares.append (h : Declares source kept found) (h' : Declares source kept' found') :
    Declares source (kept ++ kept') (found ++ found') := by
  unfold Declares at h h' ⊢
  rw [List.map_append, List.map_append, h, h']

/-- It does not matter from where positions are seen. -/
theorem Declares.map (h : Declares source kept found) (move : List Nat → List Nat) :
    Declares source (kept.map fun entry => (move entry.1, entry.2)) found := by
  unfold Declares at h ⊢
  rw [List.map_map]
  exact h

/-- There are as many declarations as kept nodes. -/
theorem Declares.length_eq (h : Declares source kept found) : found.length = kept.length := by
  have hlength := congrArg List.length h
  rwa [List.length_map, List.length_map] at hlength

/-- The declarations have the places of the kept nodes. -/
theorem Declares.spans (h : Declares source kept found) :
    found.map (·.span) = kept.map fun entry => entry.2.node.span := by
  unfold Declares at h
  induction found generalizing kept with
  | nil =>
    rw [List.map_nil] at h ⊢
    rw [List.map_eq_nil_iff.mp h.symm]
    rfl
  | cons d rest ih =>
    cases kept with
    | nil => simp at h
    | cons entry kept =>
      rw [List.map_cons, List.map_cons] at h ⊢
      obtain ⟨hd, hrest⟩ := List.cons.inj h
      rw [ih hrest, span_of_declared? hd.symm]

end Declares

/-- The declaration of a member itself is that of the kept node at its place. -/
theorem exists_lists_self (source : String) (hnamed : c.node.named = true) :
    ∃ kept, Lists (fun position d => (position = [] ∧ d = c) ∧ d.IsDeclaration) kept ∧
      Declares source kept (c.declared? source).toList := by
  cases hdeclared : c.declared? source with
  | some declaration =>
    have hdeclaration : c.IsDeclaration :=
      ((declared?_isSome_iff source).mp (by rw [hdeclared]; rfl)).2
    refine ⟨[([], c)], (Lists.singleton [] c).congr fun position d => ?_, ?_⟩
    · constructor
      · intro h
        exact ⟨h, h.2 ▸ hdeclaration⟩
      · intro h
        exact h.1
    · simp [Declares, hdeclared]
  | none =>
    refine ⟨[], Lists.nil fun position d h => ?_, rfl⟩
    obtain ⟨⟨-, rfl⟩, hdeclaration⟩ := h
    have hsome := (declared?_isSome_iff source).mpr ⟨hnamed, hdeclaration⟩
    rw [hdeclared] at hsome
    exact absurd hsome (by decide)

/-- The declarations below a member are those of the kept nodes of what it opens. -/
theorem exists_lists_opened (hnamed : c.node.named = true)
    (h : ∀ b, c.opened? = some b → ∃ kept, Lists b.Keeps kept ∧
      Declares source kept (declarations source b.below)) :
    ∃ kept, Lists (fun position d => (∃ via b path, c.Opens via b ∧ position = via ++ path ∧
        b.HasMember path d) ∧ d.IsDeclaration) kept ∧
      Declares source kept (c.openedDeclarations source) := by
  unfold openedDeclarations
  cases hopened : c.opened? with
  | some b =>
    obtain ⟨kept, hkept, hdeclares⟩ := h b hopened
    obtain ⟨via, hvia⟩ := opens_unique hopened
    have hmoved := hkept.map (via ++ ·) fun position d position' d' _ _ hlt =>
      List.append_left_lt hlt
    refine ⟨_, hmoved.congr fun position d => ?_, ?_⟩
    · constructor
      · intro hkeeps
        obtain ⟨path, rfl, hmember, hdeclaration⟩ := hkeeps
        exact ⟨⟨via, b, path, (hvia via b).mpr ⟨rfl, rfl⟩, rfl, hmember⟩, hdeclaration⟩
      · intro hopens
        obtain ⟨⟨other, e, path, hother, rfl, hmember⟩, hdeclaration⟩ := hopens
        obtain ⟨rfl, rfl⟩ := (hvia other e).mp hother
        exact ⟨path, rfl, hmember, hdeclaration⟩
    · exact hdeclares.map (via ++ ·)
  | none =>
    refine ⟨[], Lists.nil fun position d hopens => ?_, rfl⟩
    obtain ⟨⟨via, b, path, hother, -⟩, -⟩ := hopens
    exact not_opens hnamed hopened hother

/-- The declarations that a member contributes are those of the kept nodes found there. -/
theorem exists_lists_finds
    (h : ∀ b, c.opened? = some b → ∃ kept, Lists b.Keeps kept ∧
      Declares source kept (declarations source b.below)) :
    ∃ kept, Lists (fun position d => c.Finds position d ∧ d.IsDeclaration) kept ∧
      Declares source kept ((c.declared? source).toList ++ c.openedDeclarations source) := by
  by_cases hnamed : c.node.named = true
  · obtain ⟨own, hown, hownDeclares⟩ := exists_lists_self source hnamed
    obtain ⟨below, hbelow, hbelowDeclares⟩ := exists_lists_opened hnamed h
    refine ⟨own ++ below, (hown.append hbelow ?_).congr fun position d => ?_, ?_⟩
    · intro position d position' d' hposition hposition'
      obtain ⟨⟨rfl, -⟩, -⟩ := hposition
      obtain ⟨⟨via, b, path, -, rfl, hmember⟩, -⟩ := hposition'
      cases hbelow : via ++ path with
      | nil => exact absurd (List.append_eq_nil_iff.mp hbelow).2 hmember.ne_nil
      | cons k rest => exact List.nil_lt_cons k rest
    · rw [← or_and_right]
      exact and_congr_left fun _ => ⟨fun hfound => ⟨hnamed, hfound⟩, fun hfinds => hfinds.2⟩
    · exact hownDeclares.append hbelowDeclares
  · have hrole : c.node.role = .ignored := by
      simp [ConcreteNode.role, hnamed]
    refine ⟨[], Lists.nil fun position d hfinds => hnamed hfinds.1.1, ?_⟩
    simp [Declares, declared?, openedDeclarations, opened?, hrole]

/-- The declarations found in a sequence of nodes are those of its kept nodes, in the order
of the text. -/
theorem exists_lists_keeps (source : String) (f : Forest ConcreteNode) (unit : ConcreteNode) :
    ∃ kept, Lists (⟨unit, f⟩ : Concrete).Keeps kept ∧
      Declares source kept (declarations source f) := by
  induction f using Forest.two_level_induction generalizing unit with
  | nil =>
    refine ⟨[], Lists.nil fun position d hkeeps => ?_, rfl⟩
    obtain ⟨k, path, e, -, hchild, -⟩ := hasMember_iff.mp hkeeps.1
    simp [children, Forest.trees] at hchild
  | cons node below rest ihBelow ihFurther ihRest =>
    -- What is opened is the node itself or one of its children.
    have hopened : ∀ b, (⟨node, below⟩ : Concrete).opened? = some b →
        ∃ kept, Lists b.Keeps kept ∧ Declares source kept (declarations source b.below) := by
      intro b hb
      rcases opened?_eq_some hb with rfl | hchild
      · exact ihBelow node
      · obtain ⟨⟨label, children⟩, hmem, rfl⟩ := List.mem_map.mp hchild
        exact ihFurther _ hmem label
    obtain ⟨first, hfirst, hfirstDeclares⟩ := exists_lists_finds hopened
    obtain ⟨others, hothers, hothersDeclares⟩ := ihRest unit
    have hfirst' := hfirst.map (0 :: ·) fun position d position' d' _ _ hlt =>
      List.cons_lt_cons_self.mpr hlt
    have hothers' := hothers.map nextPosition fun position d position' d' _ _ hlt =>
      nextPosition_lt hlt
    refine ⟨_, (hfirst'.append hothers' ?_).congr fun position d => ?_, ?_⟩
    · intro position d position' d' hposition hposition'
      obtain ⟨path, rfl, -⟩ := hposition
      obtain ⟨path', rfl, hmember, -⟩ := hposition'
      exact zero_cons_lt_nextPosition path hmember.ne_nil
    · simp only [Keeps, hasMember_cons, or_and_right, ← and_assoc, exists_and_right]
    · rw [declarations_cons]
      exact (hfirstDeclares.map (0 :: ·)).append (hothersDeclares.map nextPosition)

end Concrete

namespace Tree

/-- A walk through the declaration tree shows the compilation unit and then what is declared in
the file. -/
theorem declarations_ofConcrete (file : FileId) (source : String) (c : Concrete) :
    (ofConcrete file source c).descendants.map (ofConcrete file source c).declaration =
      { kind := .compilationUnit, span := c.node.span } ::
        Concrete.declarations source c.below :=
  declarations_ofForest file c.node.span _

/-- The declarations of the declaration tree, by the numbers of the nodes. -/
theorem getElem?_declaration_ofConcrete {file : FileId} {source : String} {c : Concrete}
    (i : Fin (ofConcrete file source c).size) :
    ({ kind := .compilationUnit, span := c.node.span } ::
        Concrete.declarations source c.below)[i.val]? =
      some ((ofConcrete file source c).declaration i) :=
  getElem?_declaration_ofForest i

/-- Every kept node of the concrete tree has its declaration in the declaration tree. -/
theorem exists_declaration_of_keeps {file : FileId} {source : String} {c d : Concrete}
    {position : List Nat} {declared : Declaration} (hd : c.Keeps position d)
    (hdeclared : d.declared? source = some declared) :
    ∃ i, (ofConcrete file source c).declaration i = declared := by
  obtain ⟨kept, hkept, hdeclares⟩ := Concrete.exists_lists_keeps source c.below c.node
  have hwalk := declarations_ofConcrete file source c
  have hsome : some declared ∈ (Concrete.declarations source c.below).map some := by
    rw [hdeclares, ← hdeclared]
    exact List.mem_map_of_mem ((hkept.mem_iff position d).mpr hd)
  have hmem : declared ∈
      (ofConcrete file source c).descendants.map (ofConcrete file source c).declaration := by
    rw [hwalk]
    exact List.mem_cons_of_mem _ (by simpa using hsome)
  obtain ⟨i, -, hi⟩ := List.mem_map.mp hmem
  exact ⟨i, hi⟩

/-- Every node of the declaration tree but the compilation unit has the declaration of a kept
node of the concrete tree. Kept nodes are numbered in their order, from one on. -/
theorem exists_keeps_of_declaration (file : FileId) (source : String) (c : Concrete)
    {i : Fin (ofConcrete file source c).size} {k : Nat} (hi : i.val = k + 1) :
    ∃ kept position d, Concrete.Lists c.Keeps kept ∧ kept[k]? = some (position, d) ∧
      d.declared? source = some ((ofConcrete file source c).declaration i) := by
  obtain ⟨kept, hkept, hdeclares⟩ := Concrete.exists_lists_keeps source c.below c.node
  have hnode := getElem?_declaration_ofConcrete i
  rw [hi, List.getElem?_cons_succ] at hnode
  -- The declarations and the kept nodes are two lists of the same length, place by place.
  have hsame := congrArg (·[k]?) hdeclares
  simp only [List.getElem?_map, hnode, Option.map_some] at hsame
  obtain ⟨⟨position, d⟩, hentry, hdeclared⟩ := Option.map_eq_some_iff.mp hsame.symm
  exact ⟨kept, position, d, hkept, hentry, hdeclared⟩

/-- The nodes of a file's declaration tree in the order of a walk are the compilation unit
and one node for each kept node of the concrete tree, in the order of the text and at the
same places. They are numbered in this order. -/
theorem ofConcrete_lists_kept (file : FileId) (source : String) (c : Concrete) :
    ∃ kept : List (List Nat × Concrete),
      kept.Pairwise (fun first second => first.1 < second.1) ∧
      (∀ position d, (position, d) ∈ kept ↔ c.Keeps position d) ∧
      (ofConcrete file source c).size = kept.length + 1 ∧
      (ofConcrete file source c).descendants.map
          (fun i => ((ofConcrete file source c).declaration i).span) =
        c.node.span :: kept.map (fun entry => entry.2.node.span) ∧
      (ofConcrete file source c).descendants.map Fin.val =
        List.range (ofConcrete file source c).size := by
  obtain ⟨kept, hkept, hdeclares⟩ := Concrete.exists_lists_keeps source c.below c.node
  have hwalk : (ofConcrete file source c).descendants.map (ofConcrete file source c).declaration =
      { kind := .compilationUnit, span := c.node.span } :: Concrete.declarations source c.below :=
    declarations_ofForest file c.node.span _
  have horder : (ofConcrete file source c).descendants =
      List.finRange (ofConcrete file source c).size := descendants_ofForest file c.node.span _
  have hsize : (ofConcrete file source c).size = kept.length + 1 := by
    have hlength := congrArg List.length hwalk
    rw [horder, List.length_map, List.length_finRange, List.length_cons,
      hdeclares.length_eq] at hlength
    exact hlength
  refine ⟨kept, hkept.sorted, hkept.mem_iff, hsize, ?_, ?_⟩
  · have hspans := congrArg (List.map (·.span)) hwalk
    rw [List.map_map, List.map_cons, hdeclares.spans] at hspans
    exact hspans
  · rw [horder, List.map_coe_finRange_eq_range]

end Tree

end StubGen

import StubGen.Parsed

/-!
# One error for each flagged node

The errors of a concrete tree belong to its flagged nodes, one to each, in pre-order. Nothing
depends on how flagged nodes lie in each other: what is below an error node is searched like
everything else.

An error has one of several shapes, but the main place of each starts where its node starts. If
the ranges of children lie in that of their parent, one after the other, then the main places
come in the order of the text.
-/

namespace StubGen

namespace Forest

variable {α : Type}

/-- The labels in pre-order, each after the label of the tree that it stands directly in. -/
def labelsUnder (parent : Option α) : Forest α → List (Option α × α)
  | nil => []
  | cons label children rest =>
    (parent, label) :: children.labelsUnder (some label) ++ rest.labelsUnder parent

/-- Without the parents, these are the labels in pre-order. -/
@[simp] theorem map_snd_labelsUnder (parent : Option α) (f : Forest α) :
    (f.labelsUnder parent).map (·.2) = f.labels := by
  induction f generalizing parent with
  | nil => rfl
  | cons label children rest ihChildren ihRest =>
    simp only [labelsUnder, labels, List.map_append, List.map_cons, ihChildren, ihRest]

/-- The ranges of the nodes lie between two offsets, each after the one before it, and so do those
of the children of each node between its ends. -/
def Nested (first last : Nat) : Forest ConcreteNode → Prop
  | nil => True
  | cons node children rest =>
    (first ≤ node.start ∧ node.start ≤ node.stop ∧ node.stop ≤ last) ∧
      children.Nested node.start node.stop ∧ rest.Nested node.stop last

instance Nested.instDecidable : (f : Forest ConcreteNode) → (first last : Nat) →
    Decidable (f.Nested first last)
  | nil, _, _ => isTrue trivial
  | cons node children rest, _, last =>
    have := instDecidable children node.start node.stop
    have := instDecidable rest node.stop last
    inferInstanceAs (Decidable (_ ∧ _ ∧ _))

/-- Nested nodes start within the bounds. -/
theorem Nested.start_mem {f : Forest ConcreteNode} {first last : Nat} (h : f.Nested first last)
    {node : ConcreteNode} (hnode : node ∈ f.labels) : first ≤ node.start ∧ node.start ≤ last := by
  induction f generalizing first last with
  | nil => exact absurd hnode List.not_mem_nil
  | cons parent children rest ihChildren ihRest =>
    obtain ⟨hparent, hchildren, hrest⟩ := h
    rw [labels, List.cons_append, List.mem_cons, List.mem_append] at hnode
    rcases hnode with rfl | hbelow | hafter
    · omega
    · have := ihChildren hchildren hbelow
      omega
    · have := ihRest hrest hafter
      omega

/-- In pre-order, nested nodes never start before an earlier one. -/
theorem Nested.labels_pairwise {f : Forest ConcreteNode} {first last : Nat}
    (h : f.Nested first last) : f.labels.Pairwise fun a b => a.start ≤ b.start := by
  induction f generalizing first last with
  | nil => exact List.Pairwise.nil
  | cons parent children rest ihChildren ihRest =>
    obtain ⟨hparent, hchildren, hrest⟩ := h
    rw [labels, List.cons_append, List.pairwise_cons, List.pairwise_append]
    refine ⟨fun node hnode => ?_, ihChildren hchildren, ihRest hrest, ?_⟩
    · rcases List.mem_append.mp hnode with hbelow | hafter
      · exact (hchildren.start_mem hbelow).1
      · have := hrest.start_mem hafter
        omega
    · intro below hbelow after hafter
      have := hchildren.start_mem hbelow
      have := hrest.start_mem hafter
      omega

end Forest

namespace Concrete

/-- All nodes in pre-order, each after its parent if it has one. -/
def nodesUnderParents (c : Concrete) : List (Option ConcreteNode × ConcreteNode) :=
  (Forest.cons c.node c.below .nil).labelsUnder none

/-- The nodes that the parser made up or skipped over, in pre-order and after their parents. -/
def flaggedNodes (c : Concrete) : List (Option ConcreteNode × ConcreteNode) :=
  c.nodesUnderParents.filter (·.2.flagged)

/-- The children of every node lie inside it, one after the other. -/
def Nested (c : Concrete) : Prop := c.below.Nested c.node.start c.node.stop

/-- Without the parents, these are the root and what is below it. -/
@[simp] theorem map_snd_nodesUnderParents (c : Concrete) :
    c.nodesUnderParents.map (·.2) = c.node :: c.below.labels := by
  rw [nodesUnderParents, Forest.map_snd_labelsUnder, Forest.labels, Forest.labels, List.append_nil]

/-- A tree has an error exactly if it has a flagged node. -/
theorem hasError_eq_false_iff (c : Concrete) : c.hasError = false ↔ c.flaggedNodes = [] := by
  have hall : (∀ node ∈ c.nodesUnderParents.map (·.2), ¬ node.flagged = true) ↔
      c.flaggedNodes = [] := by
    rw [flaggedNodes, List.filter_eq_nil_iff, List.forall_mem_map]
  rw [← hall, map_snd_nodesUnderParents]
  simp [hasError]

/-- In pre-order, the nodes of a nested tree never start before an earlier one. -/
theorem Nested.nodes_pairwise {c : Concrete} (h : c.Nested) :
    (c.node :: c.below.labels).Pairwise fun a b => a.start ≤ b.start := by
  rw [List.pairwise_cons]
  exact ⟨fun node hnode => (Forest.Nested.start_mem h hnode).1, Forest.Nested.labels_pairwise h⟩

/-- In a nested tree, flagged nodes never start before an earlier one. -/
theorem Nested.flaggedNodes_pairwise {c : Concrete} (h : c.Nested) :
    c.flaggedNodes.Pairwise fun a b => a.2.start ≤ b.2.start := by
  have hall : (c.nodesUnderParents.map (·.2)).Pairwise fun a b => a.start ≤ b.start := by
    rw [map_snd_nodesUnderParents]
    exact h.nodes_pairwise
  exact (List.pairwise_map.mp hall).filter _

end Concrete

namespace SyntaxError

/-- The error for a flagged node, given the node's parent. -/
def ofFlagged (source : String) (parent : Option ConcreteNode) (node : ConcreteNode) :
    SyntaxError :=
  if node.isError then ofErrorNode source parent node else ofMissingNode source parent node

/-- A flagged node has its error, and another node has none. -/
theorem ofNode?_eq (source : String) (parent : Option ConcreteNode) (node : ConcreteNode) :
    ofNode? source parent node =
      if node.flagged then some (ofFlagged source parent node) else none := by
  unfold ofNode? ofFlagged ConcreteNode.flagged
  cases node.isError <;> cases node.isMissing <;> rfl

/-- The errors of a sequence of trees are those of its flagged nodes. -/
theorem ofForest_eq (source : String) (parent : Option ConcreteNode) (f : Forest ConcreteNode) :
    ofForest source parent f =
      ((f.labelsUnder parent).filter (·.2.flagged)).map fun n => ofFlagged source n.1 n.2 := by
  induction f generalizing parent with
  | nil => rfl
  | cons node children rest ihChildren ihRest =>
    rw [ofForest, Forest.labelsUnder, List.cons_append, List.filter_cons, ofNode?_eq, ihChildren,
      ihRest, List.filter_append]
    by_cases hflagged : node.flagged = true
    · simp [hflagged]
    · simp [hflagged]

/-- The errors of a tree are those of its flagged nodes. Whether the search starts at all does
not matter, as it only starts if there is something to find. -/
theorem ofConcrete_eq (source : String) (c : Concrete) :
    ofConcrete source c = c.flaggedNodes.map fun n => ofFlagged source n.1 n.2 := by
  unfold ofConcrete
  split
  · exact ofForest_eq source none _
  · rename_i hnone
    rw [(c.hasError_eq_false_iff).mp (Bool.eq_false_iff.mpr hnone)]
    rfl

/-- An error node's error is found where the node starts. -/
theorem offset?_ofErrorNode (source : String) (parent : Option ConcreteNode)
    (node : ConcreteNode) : (ofErrorNode source parent node).offset? = some node.start := by
  have hunclosed (opening : Option Stretch) (delimiter : Delimiter) (other : SyntaxError)
      (hother : other.offset? = some node.start) :
      ((opening.map fun place => unclosedDelimiter delimiter place
        ⟨node.start, node.stop - node.start⟩ (.input source)).getD other).offset? =
          some node.start := by
    cases opening with
    | none => exact hother
    | some place => rfl
  cases parent with
  | none => rfl
  | some parent =>
    unfold ofErrorNode
    dsimp only
    split
    · exact hunclosed _ _ _ rfl
    · split
      · exact hunclosed _ _ _ rfl
      · split <;> rfl

/-- A missing node's error is found where the node should be. For a missing closing delimiter
that is the place where it should be closed, not the place of the opening one. -/
theorem offset?_ofMissingNode (source : String) (parent : Option ConcreteNode)
    (node : ConcreteNode) : (ofMissingNode source parent node).offset? = some node.start := by
  unfold ofMissingNode
  dsimp only
  cases Delimiter.closedBy? node.kind with
  | none => rfl
  | some delimiter =>
    cases parent with
    | none => rfl
    | some parent =>
      cases hopening : findIn? source parent delimiter.opening <;> simp [hopening, offset?]

/-- Every error is found where its node starts. -/
theorem offset?_ofFlagged (source : String) (parent : Option ConcreteNode) (node : ConcreteNode) :
    (ofFlagged source parent node).offset? = some node.start := by
  unfold ofFlagged
  split
  · exact offset?_ofErrorNode source parent node
  · exact offset?_ofMissingNode source parent node

end SyntaxError

namespace Parsed

/-- Parsing reports one error for each flagged node, in pre-order, at the offset where the node
starts. If children lie inside their parents, one after the other, the offsets never decrease.
The file is clean exactly if no node is flagged. -/
theorem errors_match_flagged (file : FileId) (source : String) (c : Concrete) :
    (ofConcrete file source c).errors =
        c.flaggedNodes.map (fun n => SyntaxError.ofFlagged source n.1 n.2) ∧
      (ofConcrete file source c).errors.map (·.offset?) =
        c.flaggedNodes.map (fun n => some n.2.start) ∧
      (c.Nested →
        ((ofConcrete file source c).errors.filterMap (·.offset?)).Pairwise (· ≤ ·)) ∧
      ((ofConcrete file source c).isClean = true ↔
        ∀ node ∈ c.node :: c.below.labels, node.flagged = false) := by
  have herrors : (ofConcrete file source c).errors =
      c.flaggedNodes.map fun n => SyntaxError.ofFlagged source n.1 n.2 :=
    SyntaxError.ofConcrete_eq source c
  have hoffset : ((·.offset?) ∘ fun n : Option ConcreteNode × ConcreteNode =>
      SyntaxError.ofFlagged source n.1 n.2) = fun n => some n.2.start := by
    funext n
    exact SyntaxError.offset?_ofFlagged source n.1 n.2
  have hoffsets : (ofConcrete file source c).errors.map (·.offset?) =
      c.flaggedNodes.map fun n => some n.2.start := by
    rw [herrors, List.map_map, hoffset]
  refine ⟨herrors, hoffsets, fun hnested => ?_, ?_⟩
  · have hstarts : (ofConcrete file source c).errors.filterMap (·.offset?) =
        c.flaggedNodes.map (·.2.start) := by
      rw [herrors, List.filterMap_map, hoffset]
      exact congrFun List.filterMap_eq_map _
    rw [hstarts, List.pairwise_map]
    exact hnested.flaggedNodes_pairwise
  · have hclean : (ofConcrete file source c).isClean = true ↔ c.flaggedNodes = [] := by
      rw [isClean, herrors]
      simp [ofConcrete]
    rw [hclean, Concrete.flaggedNodes, List.filter_eq_nil_iff, ← c.map_snd_nodesUnderParents,
      List.forall_mem_map]
    simp

/-- The text `a((` with an error node around another one and a missing bracket after both. -/
def errorInError : Concrete :=
  let node (kind : String) (start stop : Nat) : ConcreteNode :=
    { kind := kind, named := true, isError := kind == "ERROR", isMissing := start == stop
      start := start, stop := stop, field := none }
  { node := node "parameter_list" 0 3
    below := .cons (node "ERROR" 1 3) (.cons (node "ERROR" 2 3) .nil .nil)
      (.cons (node ")" 3 3) .nil .nil) }

/-- Of two error nodes in each other and a missing bracket, each has its error, in order. -/
theorem errors_match_flagged_errorInError :
    errorInError.Nested ∧
      (ofConcrete ⟨0⟩ "a((" errorInError).errors.map (·.offset?) = [some 1, some 2, some 3] ∧
      ((ofConcrete ⟨0⟩ "a((" errorInError).errors.filterMap (·.offset?)).Pairwise (· ≤ ·) := by
  have hnested : errorInError.Nested := by simp [errorInError, Concrete.Nested, Forest.Nested]
  obtain ⟨-, hoffsets, hordered, -⟩ := errors_match_flagged ⟨0⟩ "a((" errorInError
  exact ⟨hnested, hoffsets.trans (by decide), hordered hnested⟩

end Parsed

end StubGen

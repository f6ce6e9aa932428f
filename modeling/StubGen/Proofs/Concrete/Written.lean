import StubGen.Proofs.Concrete.Parameters
import StubGen.Proofs.SyntaxError.Flagged
import StubGen.Proofs.Text.Slices
import StubGen.Proofs.Tree.Shape

/-!
# What is written at the nodes of a concrete tree

If the nodes of a concrete tree lie in each other, in order, and do not cut characters of the
source text in two, then every node has its text. The modifiers of a declaration are the text
from the first of their nodes to the last, with all that stands between them, and a name is
the text of its node without blanks.
-/

namespace StubGen

namespace Forest

variable {f : Forest ConcreteNode} {first last : Nat} {t : ConcreteNode × Forest ConcreteNode}

/-- The labels of the trees themselves are among all labels, in the same order. -/
theorem map_fst_trees_sublist (f : Forest ConcreteNode) :
    (f.trees.map (·.1)).Sublist f.labels := by
  induction f with
  | nil => exact List.Sublist.refl _
  | cons node children rest _ ih =>
    rw [trees, List.map_cons, labels, List.cons_append]
    exact (ih.trans (List.sublist_append_right _ _)).cons_cons node

/-- Each of nested trees ends after it starts, and what is below it is nested in it. -/
theorem Nested.of_mem_trees (hf : f.Nested first last) (h : t ∈ f.trees) :
    t.1.start ≤ t.1.stop ∧ t.2.Nested t.1.start t.1.stop := by
  induction f generalizing first with
  | nil => exact absurd h List.not_mem_nil
  | cons node children rest _ ih =>
    obtain ⟨hnode, hchildren, hrest⟩ := hf
    rcases List.mem_cons.mp h with rfl | hmem
    · exact ⟨hnode.2.1, hchildren⟩
    · exact ih hrest hmem

end Forest

namespace Concrete

/-- A tree over a source text: the nodes lie in each other, in order, and start and stop at
character boundaries. -/
structure Fits (source : String) (c : Concrete) : Prop where
  nested : c.Nested
  boundaries : ∀ node ∈ c.node :: c.below.labels,
    Text.IsBoundary source node.start ∧ Text.IsBoundary source node.stop

instance (source : String) (c : Concrete) : Decidable (c.Fits source) :=
  decidable_of_iff
    (c.below.Nested c.node.start c.node.stop ∧ ∀ node ∈ c.node :: c.below.labels,
      Text.IsBoundary source node.start ∧ Text.IsBoundary source node.stop)
    ⟨fun h => ⟨h.1, h.2⟩, fun h => ⟨h.nested, h.boundaries⟩⟩

/-- The nodes of the modifiers of a declaration. -/
def modifierNodes (c : Concrete) : List ConcreteNode :=
  (c.children.filter (·.node.isNamed "modifier")).map (·.node)

/-- A declaration has the name that is written in its field for names, without blanks. An
identifier has none, so it is the name as it stands. -/
structure Names (source : String) (c : Concrete) (name : String) : Prop where
  written : ∀ d, c.field? "name" = some d → ∃ part,
    Text.IsSlice source d.node.start d.node.stop part ∧ name = Text.compact part ∧
      ((∀ ch ∈ part.toList, Text.isBlank ch = false) → name = part)
  absent : c.field? "name" = none → name = ""

variable {source : String} {c d : Concrete}

/-- A child and what is below it fit the text, and the child ends after it starts. -/
theorem Fits.child (hc : c.Fits source) (hd : d ∈ c.children) :
    d.Fits source ∧ d.node.start ≤ d.node.stop := by
  obtain ⟨t, ht, rfl⟩ := List.mem_map.mp hd
  obtain ⟨hle, hnested⟩ := hc.nested.of_mem_trees ht
  have hnode : t.1 ∈ c.below.labels :=
    (Forest.map_fst_trees_sublist c.below).subset (List.mem_map_of_mem ht)
  have hbelow : t.2.labels ⊆ c.below.labels := (Forest.labels_sublist_of_mem_trees ht).subset
  have hsubset : t.1 :: t.2.labels ⊆ c.node :: c.below.labels :=
    List.cons_subset.mpr ⟨List.mem_cons_of_mem _ hnode,
      fun node hmem => List.mem_cons_of_mem _ (hbelow hmem)⟩
  exact ⟨⟨hnested, fun node hmem => hc.boundaries node (hsubset hmem)⟩, hle⟩

/-- What stands at a position fits the text. -/
theorem Fits.at? (hc : c.Fits source) {position : List Nat} (hd : c.at? position = some d) :
    d.Fits source := by
  induction position generalizing c with
  | nil =>
    obtain rfl := Option.some.inj hd
    exact hc
  | cons k position ih =>
    obtain ⟨e, he, hbelow⟩ := Option.bind_eq_some_iff.mp hd
    exact ih (hc.child (List.mem_of_getElem? he)).1 hbelow

/-- Children start in order. -/
theorem Fits.children_pairwise (hc : c.Fits source) :
    (c.children.map (·.node)).Pairwise fun a b => a.start ≤ b.start := by
  have hnodes : c.children.map (·.node) = c.below.trees.map (·.1) := by
    rw [children, List.map_map]
    rfl
  rw [hnodes]
  exact (Forest.Nested.labels_pairwise hc.nested).sublist (Forest.map_fst_trees_sublist c.below)

/-- The text of a child. -/
theorem Fits.exists_slice_child (hc : c.Fits source) (hd : d ∈ c.children) :
    ∃ part, Text.IsSlice source d.node.start d.node.stop part ∧ d.node.text source = part := by
  obtain ⟨hfits, hle⟩ := hc.child hd
  obtain ⟨hstart, hstop⟩ := hfits.boundaries d.node List.mem_cons_self
  obtain ⟨part, hpart, hslice⟩ := hstart.exists_slice?_eq hstop hle
  refine ⟨part, hpart, ?_⟩
  rw [ConcreteNode.text, Text.slice, hslice, Option.map_some, Option.getD_some,
    String.ofList_toList]

/-- The name of a declaration is the one that is written. -/
theorem Fits.names (hc : c.Fits source) : c.Names source (c.fieldText source "name") where
  written := by
    intro d hd
    obtain ⟨part, hpart, htext⟩ := hc.exists_slice_child (List.mem_of_find?_eq_some hd)
    have hname : c.fieldText source "name" = Text.compact part := by
      rw [fieldText, hd, Option.map_some, Option.getD_some, ConcreteNode.compactText, htext]
    exact ⟨part, hpart, hname, fun hblank => hname.trans (Text.compact_eq_self hblank)⟩
  absent := by
    intro hnone
    rw [fieldText, hnone]
    rfl

/-- The node of a modifier is the node of a child. -/
theorem exists_child_of_mem_modifierNodes {node : ConcreteNode} (h : node ∈ c.modifierNodes) :
    ∃ d ∈ c.children, d.node = node := by
  obtain ⟨d, hd, rfl⟩ := List.mem_map.mp h
  exact ⟨d, List.mem_of_mem_filter hd, rfl⟩

/-- The first modifier does not start after any other one. -/
theorem Fits.first_modifier_le (hc : c.Fits source) {first node : ConcreteNode}
    (hfirst : c.modifierNodes.head? = some first) (hnode : node ∈ c.modifierNodes) :
    first.start ≤ node.start := by
  have hordered : c.modifierNodes.Pairwise fun a b => a.start ≤ b.start :=
    hc.children_pairwise.sublist (List.filter_sublist.map _)
  obtain ⟨rest, hrest⟩ := List.head?_eq_some_iff.mp hfirst
  rw [hrest] at hordered hnode
  rcases List.mem_cons.mp hnode with rfl | hlater
  · exact Nat.le_refl _
  · exact (List.pairwise_cons.mp hordered).1 node hlater

/-- The text of the modifiers is what is written from the first of their nodes to the last. -/
theorem Fits.modifiers_text (hc : c.Fits source) {first last : ConcreteNode}
    (hfirst : c.modifierNodes.head? = some first)
    (hlast : c.modifierNodes.getLast? = some last) :
    Text.IsSlice source first.start last.stop (c.modifiers source).text := by
  have hlastMem := List.mem_of_getLast? hlast
  obtain ⟨firstChild, hfirstChild, rfl⟩ :=
    exists_child_of_mem_modifierNodes (List.mem_of_head? hfirst)
  obtain ⟨lastChild, hlastChild, rfl⟩ := exists_child_of_mem_modifierNodes hlastMem
  obtain ⟨hfirstFits, -⟩ := hc.child hfirstChild
  obtain ⟨hlastFits, hlastEnds⟩ := hc.child hlastChild
  have hstart := (hfirstFits.boundaries _ List.mem_cons_self).1
  have hstop := (hlastFits.boundaries _ List.mem_cons_self).2
  obtain ⟨written, hwritten, hslice⟩ :=
    hstart.exists_slice?_eq hstop ((hc.first_modifier_le hfirst hlastMem).trans hlastEnds)
  have htext : (c.modifiers source).written = some written := by
    rw [modifierNodes] at hfirst hlast
    simp [modifiers, hfirst, hlast, hslice]
  rwa [Modifiers.text, htext, Option.getD_some]

/-- A declaration with modifier tokens has nodes for them. -/
theorem exists_modifierNodes {token : String} (h : token ∈ (c.modifiers source).tokens) :
    ∃ first last, c.modifierNodes.head? = some first ∧ c.modifierNodes.getLast? = some last := by
  have hne : c.modifierNodes ≠ [] := by
    intro hnil
    rw [modifierNodes] at hnil
    simp [modifiers, hnil] at h
  exact ⟨_, _, List.head?_eq_some_head hne, List.getLast?_eq_some_getLast hne⟩

/-- If a method has a single parameter, a single node of its list is read as one. -/
theorem exists_node_of_parameters {p : Declaration.Parameter} (h : c.parameters source = [p]) :
    ∃ list d, c.parameterList? = some list ∧
      list.children.filter (·.readsAsParameter) = [d] ∧ p = d.parameter source := by
  cases hlist : c.parameterList? with
  | none =>
    rw [parameterList?] at hlist
    simp [parameters, hlist] at h
  | some list =>
    rw [parameters_eq hlist] at h
    obtain ⟨d, hd, rfl⟩ := List.map_eq_singleton_iff.mp h
    exact ⟨list, d, rfl, hd, rfl⟩

end Concrete

end StubGen

import StubGen.Proofs.Concrete.Kept
import StubGen.Proofs.SyntaxError.Unclosed

/-!
# False reports of unclosed delimiters

A report says that an opening character has no partner. Whether that is so can be seen at the
children of the parent: a closing character is a child of its own kind, and one that the parser
made up is flagged as missing. The report is made without a look at them.

For a missing closing character this does no harm, unless a second one is there. For an error node
it does: anything that does not fit between the brackets of a list makes the list suspect, whether
it is closed or not.
-/

namespace StubGen

namespace Forest

/-- The trees of a sequence and those below them, in pre-order, each after the tree that it stands
directly in. -/
def treesUnder (parent : Option Concrete) :
    Forest ConcreteNode → List (Option Concrete × Concrete)
  | nil => []
  | cons node below rest =>
    (parent, ⟨node, below⟩) :: below.treesUnder (some ⟨node, below⟩) ++ rest.treesUnder parent

/-- At the roots of the trees stand the labels, in the same order. -/
theorem map_node_treesUnder (parent : Option Concrete) (f : Forest ConcreteNode) :
    (f.treesUnder parent).map (fun n => (n.1.map (·.node), n.2.node)) =
      f.labelsUnder (parent.map (·.node)) := by
  induction f generalizing parent with
  | nil => rfl
  | cons node below rest ihBelow ihRest =>
    simp only [treesUnder, labelsUnder, List.map_append, List.map_cons, ihBelow, ihRest]
    rfl

/-- A tree is one of the sequence, or a child of the tree that it stands in. -/
theorem mem_treesUnder {parent q : Option Concrete} {t : Concrete} {f : Forest ConcreteNode}
    (h : (q, t) ∈ f.treesUnder parent) :
    (q = parent ∧ (t.node, t.below) ∈ f.trees) ∨ ∃ p, q = some p ∧ t ∈ p.children := by
  induction f generalizing parent with
  | nil => exact absurd h List.not_mem_nil
  | cons node below rest ihBelow ihRest =>
    rw [treesUnder, List.cons_append, List.mem_cons, List.mem_append] at h
    rw [trees, List.mem_cons]
    rcases h with hfirst | hbelow | hrest
    · obtain ⟨rfl, rfl⟩ := Prod.mk.inj hfirst
      exact .inl ⟨rfl, .inl rfl⟩
    · rcases ihBelow hbelow with ⟨rfl, htree⟩ | hdeeper
      · exact .inr ⟨_, rfl, List.mem_map.mpr ⟨_, htree, rfl⟩⟩
      · exact .inr hdeeper
    · rcases ihRest hrest with ⟨rfl, htree⟩ | hdeeper
      · exact .inl ⟨rfl, .inr htree⟩
      · exact .inr hdeeper

end Forest

namespace Concrete

/-- The flagged nodes with all that is below them, in pre-order, each after the tree that it
stands directly in. -/
def flaggedTrees (c : Concrete) : List (Option Concrete × Concrete) :=
  ((Forest.cons c.node c.below .nil).treesUnder none).filter (·.2.node.flagged)

/-- The closing characters of a delimiter among the children, missing or not. -/
def closers (p : Concrete) (d : Delimiter) : List Concrete :=
  p.children.filter (·.node.kind == d.closingText)

/-- A node is closed if one of its children is a closing character that is not missing. -/
def IsClosed (p : Concrete) (d : Delimiter) : Prop :=
  ∃ closer ∈ p.closers d, closer.node.isMissing = false

/-- The text of a node is there and holds a character. -/
def Shows (p : Concrete) (source : String) (ch : Char) : Prop :=
  ∃ part, Text.IsSlice source p.node.start p.node.stop part ∧ ch ∈ part.toList

/-- The flagged nodes are those at the roots of the flagged trees. -/
theorem flaggedNodes_eq (c : Concrete) :
    c.flaggedNodes = c.flaggedTrees.map fun n => (n.1.map (·.node), n.2.node) := by
  rw [flaggedNodes, nodesUnderParents, flaggedTrees, ← Option.map_none,
    ← Forest.map_node_treesUnder, List.filter_map]
  rfl

/-- A flagged tree with a parent is a child of it. -/
theorem mem_children_of_mem_flaggedTrees {c p t : Concrete} (h : (some p, t) ∈ c.flaggedTrees) :
    t ∈ p.children := by
  rcases Forest.mem_treesUnder (List.mem_filter.mp h).1 with ⟨hnone, -⟩ | ⟨q, hq, ht⟩
  · exact absurd hnone (Option.some_ne_none p)
  · rwa [Option.some.inj hq]

end Concrete

namespace SyntaxError

variable {source : String} {d : Delimiter}

/-- A delimiter is reported as unclosed at a flagged node below a parent. -/
def Reports (source : String) (parent? : Option Concrete) (t : Concrete) (d : Delimiter) : Prop :=
  ∃ opening close named, ofFlagged source (parent?.map (·.node)) t.node =
    .unclosedDelimiter d opening close named

/-- A character is found in the text of a node exactly if the text holds it. -/
theorem exists_findIn?_iff {p : Concrete} {ch : Char} :
    (∃ place, findIn? source p.node ch = some place) ↔ p.Shows source ch := by
  constructor
  · rintro ⟨place, hplace⟩
    obtain ⟨chars, hslice, hfound⟩ := Option.bind_eq_some_iff.mp hplace
    obtain ⟨count, hcount, -⟩ := Option.bind_eq_some_iff.mp hfound
    refine ⟨String.ofList chars, Text.isSlice_of_slice? hslice, ?_⟩
    rw [String.toList_ofList]
    exact bytesBefore?_isSome_iff.mp (Option.isSome_of_mem hcount)
  · rintro ⟨part, hpart, hmem⟩
    obtain ⟨count, hcount⟩ :=
      Option.isSome_iff_exists.mp (bytesBefore?_isSome_iff.mpr hmem)
    refine ⟨⟨p.node.start + count, 1⟩, ?_⟩
    rw [findIn?, Text.slice?_of_isSlice hpart]
    simp [hcount]

/-- A delimiter is reported exactly if it is suspect and its opening character is in the text of
the parent. -/
theorem reports_iff {parent? : Option Concrete} {t : Concrete} (hflagged : t.node.flagged = true) :
    Reports source parent? t d ↔
      ∃ p, parent? = some p ∧ d.Suspect p.node t.node ∧ p.Shows source d.opening := by
  constructor
  · rintro ⟨opening, close, named, hreport⟩
    obtain ⟨node, hnode, hsuspect, hfound⟩ := suspect_of_ofFlagged hflagged hreport
    obtain ⟨p, rfl, rfl⟩ := Option.map_eq_some_iff.mp hnode
    exact ⟨p, rfl, hsuspect, exists_findIn?_iff.mp ⟨opening, hfound⟩⟩
  · rintro ⟨p, rfl, hsuspect, hshows⟩
    obtain ⟨opening, hfound⟩ := exists_findIn?_iff.mpr hshows
    obtain ⟨close, hreport⟩ := ofFlagged_of_suspect hsuspect hfound
    exact ⟨opening, close, _, hreport⟩

/-- A missing closing character leaves its delimiter open if it is the only one. -/
theorem not_isClosed_of_missing {p t : Concrete} (hchild : t ∈ p.children)
    (hsuspect : d.Suspect p.node t.node) (hnoError : t.node.isError = false)
    (hone : (p.closers d).length ≤ 1) : ¬ p.IsClosed d := by
  rintro ⟨closer, hcloser, hpresent⟩
  cases hsuspect with
  | inBrackets herror _ => simp [hnoError] at herror
  | inBraces herror _ => simp [hnoError] at herror
  | missing _ hmissing _ hkind =>
    have hmem : t ∈ p.closers d := List.mem_filter.mpr ⟨hchild, beq_iff_eq.mpr hkind⟩
    obtain ⟨only, honly⟩ := List.length_eq_one_iff.mp
      (Nat.le_antisymm hone (List.length_pos_of_mem hmem))
    rw [honly, List.mem_singleton] at hmem hcloser
    rw [hcloser, ← hmem, hmissing] at hpresent
    contradiction

end SyntaxError

namespace Parsed

open Concrete (leaf branch)
open SyntaxError (Reports)

/-- When reports of unclosed delimiters are true. Parsing reports one error for each flagged node.
The report of a flagged node names a delimiter that its parent does not close exactly if the node
makes no delimiter suspect that its parent closes and whose opening character is in the parent's
text: it is no error node in a closed list of parameters, arguments or members or in a closed
block, and no missing closing character beside one that is there. A report for a missing closing
character is true if it is the only one among the children of its parent. -/
theorem unclosed_report_true_iff (file : FileId) (source : String) (c : Concrete) :
    (ofConcrete file source c).errors = c.flaggedTrees.map
        (fun n => SyntaxError.ofFlagged source (n.1.map (·.node)) n.2.node) ∧
      (∀ p t, (some p, t) ∈ c.flaggedTrees → t ∈ p.children) ∧
      (∀ n ∈ c.flaggedTrees, ∀ d,
        (Reports source n.1 n.2 d → ∃ p, n.1 = some p ∧ ¬ p.IsClosed d) ↔
          ∀ p, n.1 = some p → d.Suspect p.node n.2.node → p.Shows source d.opening →
            ¬ p.IsClosed d) ∧
      ∀ p t d, (some p, t) ∈ c.flaggedTrees → t.node.isError = false →
        Reports source (some p) t d → (p.closers d).length ≤ 1 → ¬ p.IsClosed d := by
  have herrors : (ofConcrete file source c).errors =
      c.flaggedNodes.map fun n => SyntaxError.ofFlagged source n.1 n.2 :=
    SyntaxError.ofConcrete_eq source c
  refine ⟨?_, fun p t => Concrete.mem_children_of_mem_flaggedTrees, fun n hn d => ?_, ?_⟩
  · rw [herrors, Concrete.flaggedNodes_eq, List.map_map]
    rfl
  · rw [SyntaxError.reports_iff (List.mem_filter.mp hn).2]
    constructor
    · intro htrue p hp hsuspect hshows
      obtain ⟨q, hq, hnotClosed⟩ := htrue ⟨p, hp, hsuspect, hshows⟩
      obtain rfl := Option.some.inj (hp.symm.trans hq)
      exact hnotClosed
    · rintro hopen ⟨p, hp, hsuspect, hshows⟩
      exact ⟨p, hp, hopen p hp hsuspect hshows⟩
  · intro p t d hmem hnoError hreport hone
    obtain ⟨q, hq, hsuspect, -⟩ :=
      (SyntaxError.reports_iff (List.mem_filter.mp hmem).2).mp hreport
    obtain rfl := Option.some.inj hq
    exact SyntaxError.not_isClosed_of_missing (Concrete.mem_children_of_mem_flaggedTrees hmem)
      hsuspect hnoError hone

/-- A list whose only closing bracket is missing is reported, and it is not closed. -/
theorem unclosed_report_true_iff_openList :
    (some openList, ⟨missingBracket, .nil⟩) ∈ openList.flaggedTrees ∧
      Reports "Ä(x" (some openList) ⟨missingBracket, .nil⟩ .round ∧
      ¬ openList.IsClosed .round := by
  have hmem : (some openList, ⟨missingBracket, .nil⟩) ∈ openList.flaggedTrees := by
    decide +kernel
  have hreport : Reports "Ä(x" (some openList) ⟨missingBracket, .nil⟩ .round :=
    ⟨⟨2, 1⟩, ⟨4, 1⟩, .input "Ä(x", by decide +kernel⟩
  obtain ⟨-, -, -, hmissing⟩ := unclosed_report_true_iff ⟨0⟩ "Ä(x" openList
  exact ⟨hmem, hreport, hmissing _ _ _ hmem rfl hreport (by decide +kernel)⟩

/-- A text with a parameter that has no name. -/
def namelessText : String := "class A \x7b void M(string) \x7b \x7d \x7d"

/-- The parameter, which does not fit as one. -/
def namelessParameter : Concrete where
  node := { (leaf "ERROR" true 17 23).node with isError := true }
  below := .cons (leaf "predefined_type" true 17 23).node .nil .nil

/-- The list of parameters, with both of its brackets. -/
def namelessList : Concrete :=
  branch "parameter_list" 16 24
    [leaf "(" false 16 17, namelessParameter, leaf ")" false 23 24] "parameters"

/-- The concrete tree of the text. -/
def namelessFile : Concrete :=
  branch "compilation_unit" 0 30
    [branch "class_declaration" 0 30
      [leaf "class" false 0 5, leaf "identifier" true 6 7 "name",
        branch "declaration_list" 8 30
          [leaf "\x7b" false 8 9,
            branch "method_declaration" 10 28
              [leaf "predefined_type" true 10 14 "returns", leaf "identifier" true 15 16 "name",
                namelessList,
                branch "block" 25 28 [leaf "\x7b" false 25 26, leaf "\x7d" false 27 28] "body"],
            leaf "\x7d" false 29 30] "body"]]

/-- The only error of the file is that the round bracket is not closed, but it is. -/
theorem unclosed_report_of_closedList :
    namelessFile.flaggedTrees = [(some namelessList, namelessParameter)] ∧
      (ofConcrete ⟨0⟩ namelessText namelessFile).errors =
        [.unclosedDelimiter .round ⟨16, 1⟩ ⟨17, 6⟩ (.input namelessText)] ∧
      Reports namelessText (some namelessList) namelessParameter .round ∧
      namelessList.IsClosed .round := by
  refine ⟨by decide +kernel, by decide +kernel, ?_, ?_⟩
  · exact ⟨⟨16, 1⟩, ⟨17, 6⟩, .input namelessText, by decide +kernel⟩
  · exact ⟨leaf ")" false 23 24, by decide +kernel, rfl⟩

end Parsed

end StubGen

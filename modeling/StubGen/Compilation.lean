import StubGen.Namespace
import StubGen.Tree.Walk

/-!
# Compilations

The trees of all files that are looked at together, in file order, and the namespaces that
their global using directives import.
-/

namespace StubGen

/-- A node together with the tree that holds it. -/
structure NodeRef where
  tree : Tree
  id : Fin tree.size

namespace NodeRef

/-- The declaration at the node. -/
def declaration (n : NodeRef) : Declaration := n.tree.declaration n.id

/-- The node above. -/
def parent (n : NodeRef) : Option NodeRef := (n.tree.parent n.id).map (NodeRef.mk n.tree)

/-- The nodes above, nearest first. -/
def ancestors (n : NodeRef) : List NodeRef := (n.tree.ancestors n.id).map (NodeRef.mk n.tree)

/-- The nodes directly below, in order. -/
def children (n : NodeRef) : List NodeRef := (n.tree.children n.id).map (NodeRef.mk n.tree)

end NodeRef

/-- The trees of a build, in file order. -/
structure Compilation where
  trees : List Tree := []

namespace Compilation

/-- The namespaces imported by the global using directives at the top of a file. -/
def globalUsingsOf (t : Tree) : List Namespace :=
  ((t.children t.root).map t.declaration).filterMap fun d =>
    if d.kind = .usingDirective ∧ d.modifiers.contains Modifiers.globalToken then
      some (Namespace.ofDotted d.name)
    else none

/-- The list with those of `more` that it does not hold yet, each once, at the end. -/
def addNew (namespaces more : List Namespace) : List Namespace :=
  more.foldl (fun known n => if n ∈ known then known else known ++ [n]) namespaces

/-- The namespaces imported for every file, each once, in the order of their first
directive. -/
def globalUsings (c : Compilation) : List Namespace :=
  addNew [] (c.trees.flatMap globalUsingsOf)

/-- The number of nodes of all trees. -/
def nodeCount (c : Compilation) : Nat := c.trees.foldr (fun t count => t.size + count) 0

/-- Every node, in file order and in pre-order within a file. -/
def nodes (c : Compilation) : List NodeRef :=
  c.trees.flatMap fun t => t.descendants.map (NodeRef.mk t)

/-- Walks one tree after the other. Halting ends the whole walk. -/
def walkTrees {σ : Type} (visit : σ → NodeRef → σ × Flow) : List Tree → σ → σ × Flow
  | [], s => (s, .proceed)
  | t :: rest, s =>
    match t.walk (fun s i => visit s ⟨t, i⟩) s with
    | (s', .halt) => (s', .halt)
    | (s', .proceed) => walkTrees visit rest s'

/-- Visits every node, in file order and in pre-order within a file, until the visitor
halts. -/
def walk {σ : Type} (c : Compilation) (visit : σ → NodeRef → σ × Flow) (s : σ) : σ × Flow :=
  walkTrees visit c.trees s

end Compilation

end StubGen

import StubGen.Tree

/-!
# Walking a tree

A walk visits the nodes of a tree with a stack, parents before children and siblings in
order, until the visitor halts it. Beside it stands the recursive pre-order, which says
the order of the visits without a stack.
-/

namespace StubGen

/-- Whether a walk goes on after a visit. -/
inductive Flow where
  | proceed
  | halt
deriving DecidableEq, Repr, Inhabited

namespace Tree

variable {σ : Type}

/-- Visits the nodes on the stack and all nodes below them, the top of the stack first. The
first argument bounds the number of visits. -/
def walkFrom (t : Tree) (visit : σ → Fin t.size → σ × Flow) :
    Nat → List (Fin t.size) → σ → σ × Flow
  | 0, _, s => (s, .proceed)
  | _ + 1, [], s => (s, .proceed)
  | n + 1, i :: stack, s =>
    match visit s i with
    | (s', .halt) => (s', .halt)
    | (s', .proceed) => t.walkFrom visit n (t.children i ++ stack) s'

/-- Visits every node once, from the compilation unit on, until the visitor halts. -/
def walk (t : Tree) (visit : σ → Fin t.size → σ × Flow) (s : σ) : σ × Flow :=
  t.walkFrom visit t.size [t.root] s

/-- The nodes in the order in which a walk that is never halted visits them. -/
def descendants (t : Tree) : List (Fin t.size) :=
  (t.walk (fun seen i => (i :: seen, .proceed)) []).1.reverse

/-- A node, then the pre-orders of its children. -/
def preorder (t : Tree) (i : Fin t.size) : List (Fin t.size) :=
  i :: (t.children i).attach.flatMap fun child => t.preorder child.val
termination_by t.size - i.val
decreasing_by
  have := lt_of_mem_children child.property
  have := child.val.isLt
  omega

end Tree

end StubGen

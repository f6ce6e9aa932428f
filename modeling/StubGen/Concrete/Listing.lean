import StubGen.Concrete

/-!
# Concrete trees from a listing

Parsers hand a tree over as a list of its nodes in pre-order, each with the position of
its parent in the list. The list is read from its end: when the entry of a node is
reached, the trees of its children are complete.
-/

namespace StubGen.Concrete

/-- One entry of a listing. -/
structure Entry where
  /-- The position of the parent; absent for the root. -/
  parent : Option Nat
  node : ConcreteNode
deriving Repr, Inhabited

/-- The complete trees whose parents are still to come: for each parent its children so
far. -/
abbrev Pending := List (Nat × Forest ConcreteNode)

/-- The children collected for a parent. -/
def Pending.childrenOf (pending : Pending) (position : Nat) : Forest ConcreteNode :=
  ((pending.find? fun waiting => waiting.1 == position).map (·.2)).getD .nil

/-- One more tree in front of the children collected for its parent. -/
def Pending.add (pending : Pending) (parent : Nat) (node : ConcreteNode)
    (below : Forest ConcreteNode) : Pending :=
  (parent, .cons node below (pending.childrenOf parent)) ::
    pending.filter fun waiting => waiting.1 != parent

/-- Takes in the entries before `position`, last first. The result is the tree of the
first entry. -/
def assemble : List Entry → Nat → Pending → Option Concrete
  | [], _, _ => none
  | entry :: earlier, position, pending =>
    let below := pending.childrenOf (position - 1)
    match earlier, entry.parent with
    | [], _ => some ⟨entry.node, below⟩
    | _ :: _, none => none
    | _ :: _, some parent =>
      assemble earlier (position - 1)
        (Pending.add (pending.filter fun waiting => waiting.1 != position - 1) parent
          entry.node below)

/-- The tree of a listing. -/
def ofListing? (entries : List Entry) : Option Concrete :=
  assemble entries.reverse entries.length []

end StubGen.Concrete

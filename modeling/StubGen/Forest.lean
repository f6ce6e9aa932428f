/-!
# Ordered forests

A forest is a sequence of labelled trees. The type is written as a first tree, given by
its label and the forest of its children, and the trees that follow it, so recursion over
a forest is plain structural recursion.
-/

namespace StubGen

/-- A sequence of trees with labels in `α`. -/
inductive Forest (α : Type) where
  | nil
  | cons (label : α) (children rest : Forest α)
deriving Repr, DecidableEq, Inhabited

namespace Forest

variable {α : Type}

/-- The number of labels. -/
def size : Forest α → Nat
  | nil => 0
  | cons _ children rest => 1 + children.size + rest.size

/-- One forest after the other. -/
def append : Forest α → Forest α → Forest α
  | nil, other => other
  | cons label children rest, other => cons label children (rest.append other)

instance : Append (Forest α) := ⟨append⟩

/-- The trees of the sequence, each as its label and its children. -/
def trees : Forest α → List (α × Forest α)
  | nil => []
  | cons label children rest => (label, children) :: rest.trees

/-- The labels in pre-order. -/
def labels : Forest α → List α
  | nil => []
  | cons label children rest => label :: children.labels ++ rest.labels

/-- Nothing before a forest changes nothing. -/
@[simp] theorem nil_append (f : Forest α) : nil ++ f = f := rfl

/-- A first tree stays the first tree. -/
@[simp] theorem cons_append (label : α) (children rest f : Forest α) :
    cons label children rest ++ f = cons label children (rest ++ f) := rfl

/-- Nothing after a forest changes nothing. -/
@[simp] theorem append_nil (f : Forest α) : f ++ nil = f := by
  induction f with
  | nil => rfl
  | cons label children rest _ ih => rw [cons_append, ih]

/-- Sequences of trees can be regrouped. -/
theorem append_assoc (f g h : Forest α) : f ++ g ++ h = f ++ (g ++ h) := by
  induction f with
  | nil => rfl
  | cons label children rest _ ih => simp only [cons_append, ih]

/-- The labels of a sequence are those of its parts, in order. -/
@[simp] theorem labels_append (f g : Forest α) : (f ++ g).labels = f.labels ++ g.labels := by
  induction f with
  | nil => rfl
  | cons label children rest _ ih => simp [labels, ih]

/-- As many labels as the size says. -/
theorem length_labels (f : Forest α) : f.labels.length = f.size := by
  induction f with
  | nil => rfl
  | cons label children rest ihc ihr => simp [labels, size, ihc, ihr]; omega

end Forest

end StubGen

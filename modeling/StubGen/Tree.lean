import StubGen.Declaration
import StubGen.Forest

/-!
# Declaration trees

The declarations of one file, numbered from the compilation unit, which is node 0. Every
other node is recorded with the number of its parent, and a parent is always numbered
below its members. Children are not recorded: they are the nodes that name the parent, in
the order of their numbers. So parent and child links cannot disagree, and every chain of
parents ends at the compilation unit.
-/

namespace StubGen

/-- A declaration together with the number of its parent. -/
structure Member where
  declaration : Declaration
  parent : Nat
deriving DecidableEq, Repr, Inhabited

/-- The declarations of a file. -/
structure Tree where
  file : FileId
  /-- The place of the compilation unit. -/
  unitSpan : Span
  /-- Member number `i` is node number `i + 1`. -/
  members : Array Member
  /-- Parents are numbered below their members. -/
  parent_le : ∀ (i : Nat) (h : i < members.size), members[i].parent ≤ i

namespace Tree

/-- A file without members. -/
def empty (file : FileId) (span : Span := {}) : Tree where
  file := file
  unitSpan := span
  members := #[]
  parent_le := fun _ h => absurd h (Nat.not_lt_zero _)

instance : Inhabited Tree := ⟨empty default⟩

/-- The number of nodes, the compilation unit included. -/
def size (t : Tree) : Nat := t.members.size + 1

/-- A file without any declaration. -/
def isEmpty (t : Tree) : Bool := t.size ≤ 1

/-- The compilation unit. -/
def root (t : Tree) : Fin t.size := ⟨0, Nat.succ_pos _⟩

/-- The declaration at a node. -/
def declaration (t : Tree) (i : Fin t.size) : Declaration :=
  if h : i.val = 0 then { kind := .compilationUnit, span := t.unitSpan }
  else
    have hi : i.val - 1 < t.members.size := by have := i.isLt; simp only [size] at this; omega
    t.members[i.val - 1].declaration

/-- The node above. The compilation unit has none. -/
def parent (t : Tree) (i : Fin t.size) : Option (Fin t.size) :=
  if h : i.val = 0 then none
  else
    have hi : i.val - 1 < t.members.size := by have := i.isLt; simp only [size] at this; omega
    some ⟨t.members[i.val - 1].parent, by
      have := t.parent_le (i.val - 1) hi
      simp only [size]
      omega⟩

/-- A parent is numbered below its child. -/
theorem parent_lt {t : Tree} {i p : Fin t.size} (h : t.parent i = some p) : p.val < i.val := by
  unfold parent at h
  split at h
  · simp at h
  · rename_i hi
    have hlt : i.val - 1 < t.members.size := by have := i.isLt; simp only [size] at this; omega
    have hle := t.parent_le (i.val - 1) hlt
    simp only [Option.some.injEq] at h
    have hval : t.members[i.val - 1].parent = p.val := congrArg Fin.val h
    omega

/-- Only the compilation unit is without a parent. -/
theorem parent_eq_none_iff {t : Tree} {i : Fin t.size} : t.parent i = none ↔ i.val = 0 := by
  unfold parent
  split <;> simp_all

/-- The nodes directly below, in the order of their numbers. -/
def children (t : Tree) (i : Fin t.size) : List (Fin t.size) :=
  (List.finRange t.size).filter fun j => t.parent j == some i

/-- Being a child is having the parent. -/
theorem mem_children {t : Tree} {i j : Fin t.size} : j ∈ t.children i ↔ t.parent j = some i := by
  simp [children, List.mem_finRange]

/-- A child is numbered above its parent. -/
theorem lt_of_mem_children {t : Tree} {i j : Fin t.size} (h : j ∈ t.children i) :
    i.val < j.val :=
  parent_lt (mem_children.mp h)

/-- The nodes above, nearest first. -/
def ancestors (t : Tree) (i : Fin t.size) : List (Fin t.size) :=
  match _above : t.parent i with
  | none => []
  | some p => p :: t.ancestors p
termination_by i.val
decreasing_by exact parent_lt _above

/-- The place of a node and its file. -/
def fileSpan (t : Tree) (i : Fin t.size) : FileSpan := ⟨t.file, (t.declaration i).span⟩

/-- One more node, the last child of `parent`. Its number is the size before. -/
def push (t : Tree) (parent : Fin t.size) (d : Declaration) : Tree where
  file := t.file
  unitSpan := t.unitSpan
  members := t.members.push ⟨d, parent.val⟩
  parent_le := by
    intro i h
    rw [Array.getElem_push]
    split
    · exact t.parent_le i _
    · have hp := parent.isLt
      simp only [size] at hp
      simp only [Array.size_push] at h
      change parent.val ≤ i
      omega

/-- A push adds one node. -/
@[simp] theorem size_push (t : Tree) (parent : Fin t.size) (d : Declaration) :
    (t.push parent d).size = t.size + 1 := by
  simp [push, size]

/-- The tree with the trees of a forest below `parent`, numbered in pre-order. -/
def graft (t : Tree) (parent : Fin t.size) :
    Forest Declaration → { u : Tree // t.size ≤ u.size }
  | .nil => ⟨t, Nat.le_refl _⟩
  | .cons d members rest =>
    let pushed := t.push parent d
    have hpushed : pushed.size = t.size + 1 := size_push t parent d
    let below := pushed.graft ⟨t.size, by omega⟩ members
    let after := below.val.graft
      ⟨parent.val, by have := parent.isLt; have := below.property; omega⟩ rest
    ⟨after.val, by have := below.property; have := after.property; omega⟩

/-- The tree of a file whose members are the trees of a forest. -/
def ofForest (file : FileId) (span : Span) (members : Forest Declaration) : Tree :=
  ((empty file span).graft (empty file span).root members).val

end Tree

end StubGen

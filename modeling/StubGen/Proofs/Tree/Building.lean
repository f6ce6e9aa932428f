import StubGen.Proofs.Tree.Preorder

/-!
# Trees built in pre-order

A tree is numbered in pre-order if every node was put under a node on the way up from the
one put in before it. Grafting a forest keeps a tree so, and the pre-order of such a tree
is the order of its numbers.

Ways up are taken over numbers, so that they can be compared between a tree and the
larger ones that grow out of it.
-/

namespace StubGen.Tree

/-- The node with the second number is on the way up from the one with the first. -/
inductive WayUp (t : Tree) : Nat → Nat → Prop
  | here (i : Nat) : WayUp t i i
  | up {i p : Nat} {m : Member} (hm : t.members[i]? = some m) (h : WayUp t m.parent p) :
      WayUp t (i + 1) p

/-- The members of one tree are the first members of another. -/
def Extends (t u : Tree) : Prop :=
  ∀ (i : Nat) (m : Member), t.members[i]? = some m → u.members[i]? = some m

/-- Every node is below one on the way up from the node numbered before it. -/
def Rightmost (t : Tree) : Prop :=
  ∀ (i : Nat) (m : Member), t.members[i]? = some m → t.WayUp i m.parent

variable {t u v : Tree} {i j p : Nat}

/-- A way up goes on from where it arrives. -/
theorem WayUp.trans (h : t.WayUp i j) (h' : t.WayUp j p) : t.WayUp i p := by
  induction h with
  | here => exact h'
  | up hm _ ih => exact .up hm (ih h')

/-- Growing a tree does not change ways up. -/
theorem WayUp.extend (h : t.WayUp i p) (hu : t.Extends u) : u.WayUp i p := by
  induction h with
  | here i => exact .here i
  | up hm _ ih => exact .up (hu _ _ hm) ih

/-- The way up from the compilation unit ends where it begins. -/
theorem wayUp_zero : t.WayUp 0 p ↔ p = 0 := by
  constructor
  · intro h
    cases h
    rfl
  · intro h
    rw [h]
    exact .here 0

/-- The way up from a member holds the member and the way up from its parent. -/
theorem wayUp_succ {m : Member} (hm : t.members[i]? = some m) :
    t.WayUp (i + 1) p ↔ p = i + 1 ∨ t.WayUp m.parent p := by
  constructor
  · intro h
    cases h with
    | here => exact Or.inl rfl
    | up hm' h =>
      obtain rfl := Option.some.inj (hm.symm.trans hm')
      exact Or.inr h
  · intro h
    rcases h with rfl | h
    · exact .here _
    · exact .up hm h

/-- A member of a tree by the number of its node. -/
theorem parent_eq_some {i p : Fin t.size} :
    t.parent i = some p ↔
      ∃ k m, i.val = k + 1 ∧ t.members[k]? = some m ∧ m.parent = p.val := by
  unfold parent
  constructor
  · intro h
    split at h
    · simp at h
    · rename_i hi
      have hk : i.val - 1 < t.members.size := by
        have := i.isLt
        simp only [size] at this
        omega
      refine ⟨i.val - 1, t.members[i.val - 1], by omega, Array.getElem?_eq_getElem hk, ?_⟩
      exact congrArg Fin.val (Option.some.inj h)
  · intro h
    obtain ⟨k, m, hi, hm, hp⟩ := h
    obtain ⟨hk, rfl⟩ := Array.getElem?_eq_some_iff.mp hm
    rw [dif_neg (by omega), Option.some.injEq, Fin.ext_iff]
    simp only [hi, Nat.add_sub_cancel]
    exact hp

/-- The way up from a node holds the node and what is above it. -/
theorem wayUp_iff {i p : Fin t.size} : t.WayUp i.val p.val ↔ p ∈ i :: t.ancestors i := by
  induction i using parent_induction with
  | root i hnone =>
    have hzero : i.val = 0 := parent_eq_none_iff.mp hnone
    rw [ancestors_of_parent_none hnone, List.mem_singleton, hzero, wayUp_zero, Fin.ext_iff, hzero]
  | child i q hq ih =>
    obtain ⟨k, m, hk, hm, hparent⟩ := parent_eq_some.mp hq
    rw [ancestors_of_parent hq, List.mem_cons, ← ih, ← hparent, hk, wayUp_succ hm, Fin.ext_iff, hk]

section Order

/-- What is below a node in a tree numbered in pre-order is numbered without a gap. -/
theorem Rightmost.between (ht : t.Rightmost) {k l : Nat} (h : t.WayUp l i) (hik : i ≤ k)
    (hkl : k ≤ l) : t.WayUp k i := by
  induction l, hkl using Nat.le_induction with
  | base => exact h
  | succ l hkl ih =>
    cases h with
    | here => omega
    | up hm h => exact ih ((ht l _ hm).trans h)

/-- The pre-order of a node goes upwards in a tree numbered in pre-order. -/
theorem Rightmost.preorder_pairwise (ht : t.Rightmost) (i : Fin t.size) :
    (t.preorder i).Pairwise (· < ·) := by
  induction i using children_induction with
  | node i ih =>
    have hbelow {c a : Fin t.size} (hc : c ∈ t.children i) (ha : a ∈ t.preorder c) : c ≤ a := by
      rcases List.mem_cons.mp (mem_preorder.mp ha) with rfl | hmem
      · exact Nat.le_refl _
      · exact Nat.le_of_lt (lt_of_mem_ancestors hmem)
    rw [preorder_eq, List.pairwise_cons, List.pairwise_flatMap]
    refine ⟨?_, ih, ?_⟩
    · intro a ha
      obtain ⟨c, hc, ha⟩ := List.mem_flatMap.mp ha
      exact Nat.lt_of_lt_of_le (lt_of_mem_children hc) (hbelow hc ha)
    · refine (children_pairwise i).imp_of_mem ?_
      intro c d hc hd hcd a ha b hb
      by_contra hba
      -- Otherwise `d` would be among what is numbered without a gap below `c`.
      have hdb := hbelow hd hb
      have hway := ht.between (wayUp_iff.mpr (mem_preorder.mp ha)) (k := d.val)
        (Nat.le_of_lt hcd) (Nat.le_trans hdb (Nat.le_of_not_lt hba))
      have hcd' : c ∈ d :: t.ancestors d := wayUp_iff.mp hway
      exact hcd.ne (eq_of_parent_eq (mem_children.mp hc) (mem_children.mp hd) hcd'
        List.mem_cons_self)

/-- The pre-order of a tree numbered in pre-order is the order of the numbers. -/
theorem Rightmost.preorder_root (ht : t.Rightmost) :
    t.preorder t.root = List.finRange t.size := by
  refine (preorder_root_perm t).eq_of_pairwise ?_ (ht.preorder_pairwise t.root)
    (List.pairwise_lt_finRange t.size)
  intro a b _ _ hab hba
  exact absurd hab (Nat.lt_asymm hba)

end Order

section Push

variable {parent : Fin t.size} {d : Declaration}

/-- A tree is an extension of itself. -/
theorem Extends.refl (t : Tree) : t.Extends t := fun _ _ h => h

/-- Trees grow in steps. -/
theorem Extends.trans (h : t.Extends u) (h' : u.Extends v) : t.Extends v :=
  fun i m hm => h' i m (h i m hm)

/-- The members after a push. -/
theorem getElem?_push {k : Nat} {m : Member} :
    (t.push parent d).members[k]? = some m ↔
      t.members[k]? = some m ∨ k = t.members.size ∧ m = ⟨d, parent.val⟩ := by
  change (t.members.push ⟨d, parent.val⟩)[k]? = some m ↔ _
  rw [Array.getElem?_push]
  split
  · rename_i hk
    rw [hk, Array.getElem?_eq_none (Nat.le_refl _)]
    simp [eq_comm]
  · rename_i hk
    simp [hk]

/-- The number of the parent of the node with the given number. -/
def parentNumber? (t : Tree) : Nat → Option Nat
  | 0 => none
  | k + 1 => t.members[k]?.map (·.parent)

/-- Parents by their numbers. -/
theorem parent_eq_some_iff_number {i p : Fin t.size} :
    t.parent i = some p ↔ t.parentNumber? i.val = some p.val := by
  rw [parent_eq_some]
  cases hi : i.val with
  | zero => simp [parentNumber?]
  | succ k => simp [parentNumber?]

/-- The children of a node by their numbers. -/
theorem map_val_children (i : Fin t.size) :
    (t.children i).map (·.val) =
      (List.range t.size).filter fun k => t.parentNumber? k = some i.val := by
  rw [← List.map_coe_finRange_eq_range, List.filter_map, children]
  congr 1
  apply List.filter_congr
  intro j _
  rw [Bool.eq_iff_iff, beq_iff_eq, Function.comp_apply, decide_eq_true_iff]
  exact parent_eq_some_iff_number

/-- A push gives its parent to the next number and leaves all other parents as they are. -/
theorem parentNumber?_push (k : Nat) :
    (t.push parent d).parentNumber? k =
      if k = t.size then some parent.val else t.parentNumber? k := by
  cases k with
  | zero => rfl
  | succ k =>
    change ((t.members.push ⟨d, parent.val⟩)[k]?).map (·.parent) = _
    rw [Array.getElem?_push]
    have hlast : k + 1 = t.size ↔ k = t.members.size := Nat.succ_inj
    simp only [hlast]
    split <;> rfl

/-- The node with the given number after a push. -/
def kept (t : Tree) (parent : Fin t.size) (d : Declaration) (i : Fin t.size) :
    Fin (t.push parent d).size :=
  ⟨i.val, by rw [size_push]; exact Nat.lt_succ_of_lt i.isLt⟩

/-- The node that a push adds. -/
def pushed (t : Tree) (parent : Fin t.size) (d : Declaration) : Fin (t.push parent d).size :=
  ⟨t.size, by rw [size_push]; exact Nat.lt_succ_self _⟩

/-- A push adds the last child of its parent and no child of any other node. -/
theorem children_push_kept (i : Fin t.size) :
    ((t.push parent d).children (t.kept parent d i)).map (·.val) =
      (t.children i).map (·.val) ++ if i = parent then [t.size] else [] := by
  rw [map_val_children, map_val_children]
  change ((List.range (t.push parent d).size).filter fun k =>
    (t.push parent d).parentNumber? k = some i.val) = _
  rw [size_push, List.range_succ, List.filter_append]
  congr 1
  · apply List.filter_congr
    intro k hk
    rw [parentNumber?_push, if_neg (Nat.ne_of_lt (List.mem_range.mp hk))]
  · rw [List.filter_singleton, parentNumber?_push, if_pos rfl]
    simp [Fin.ext_iff, eq_comm]

/-- The node that a push adds has no children. -/
theorem children_push_pushed : (t.push parent d).children (t.pushed parent d) = [] := by
  apply List.eq_nil_iff_forall_not_mem.mpr
  intro j hj
  have hlt : t.size < j.val := lt_of_mem_children hj
  have hsize : j.val < t.size + 1 := Nat.lt_of_lt_of_eq j.isLt (size_push t parent d)
  omega

/-- A push adds to the members. -/
theorem extends_push : t.Extends (t.push parent d) :=
  fun _ _ hm => getElem?_push.mpr (Or.inl hm)

/-- A push on the way up from the last node keeps a tree numbered in pre-order. -/
theorem Rightmost.push (ht : t.Rightmost) (hparent : t.WayUp t.members.size parent.val)
    (d : Declaration) :
    (t.push parent d).Rightmost := by
  intro k m hm
  rcases getElem?_push.mp hm with hm | ⟨rfl, rfl⟩
  · exact (ht k m hm).extend extends_push
  · exact hparent.extend extends_push

end Push

section Graft

/-- Grafting adds to the members. -/
theorem extends_graft (t : Tree) (parent : Fin t.size) (f : Forest Declaration) :
    t.Extends (t.graft parent f).val := by
  induction f generalizing t with
  | nil => exact Extends.refl t
  | cons d members rest ihm ihr =>
    rw [graft]
    exact extends_push.trans ((ihm _ _).trans (ihr _ _))

/-- Grafting adds the labels of the forest, in pre-order. -/
theorem declarations_graft (t : Tree) (parent : Fin t.size) (f : Forest Declaration) :
    (t.graft parent f).val.members.toList.map (·.declaration) =
      t.members.toList.map (·.declaration) ++ f.labels := by
  induction f generalizing t with
  | nil => simp [graft, Forest.labels]
  | cons d members rest ihm ihr =>
    rw [graft]
    simp only [ihr, ihm, Forest.labels]
    simp [push]

/-- Grafting does not touch the compilation unit. -/
theorem unitSpan_graft (t : Tree) (parent : Fin t.size) (f : Forest Declaration) :
    (t.graft parent f).val.unitSpan = t.unitSpan := by
  induction f generalizing t with
  | nil => rfl
  | cons d members rest ihm ihr =>
    rw [graft]
    simp only [ihr, ihm]
    rfl

/-- Grafting on the way up from the last node keeps a tree numbered in pre-order, and the
node that is grafted on stays on the way up from the last node. -/
theorem Rightmost.graft (ht : t.Rightmost) (parent : Fin t.size)
    (hparent : t.WayUp t.members.size parent.val) (f : Forest Declaration) :
    (t.graft parent f).val.Rightmost ∧
      (t.graft parent f).val.WayUp (t.graft parent f).val.members.size parent.val := by
  induction f generalizing t with
  | nil => exact ⟨ht, hparent⟩
  | cons d members rest ihm ihr =>
    rw [Tree.graft]
    have hlast : (t.push parent d).members.size = t.size := Array.size_push _
    obtain ⟨hbelow, hway⟩ := ihm (ht.push hparent d) ⟨t.size, by rw [size_push]; omega⟩
      (by rw [hlast]; exact .here _)
    -- The pushed node is still on the way up, and its parent is above it.
    have hnode : (t.push parent d).WayUp t.size parent.val :=
      .up (getElem?_push.mpr (Or.inr ⟨rfl, rfl⟩)) (.here _)
    exact ihr hbelow _ (hway.trans (hnode.extend (extends_graft _ _ _)))

/-- A tree made of a forest is numbered in pre-order. -/
theorem rightmost_ofForest (file : FileId) (span : Span) (f : Forest Declaration) :
    (ofForest file span f).Rightmost := by
  have hempty : (empty file span).Rightmost := by
    intro k m hm
    simp [empty] at hm
  exact (hempty.graft (empty file span).root (.here 0) f).1

end Graft

/-- A walk through a tree made of a forest visits the nodes in the order of their
numbers. -/
theorem descendants_ofForest (file : FileId) (span : Span) (f : Forest Declaration) :
    (ofForest file span f).descendants = List.finRange (ofForest file span f).size := by
  rw [descendants_eq_preorder]
  exact (rightmost_ofForest file span f).preorder_root

/-- The nodes of a tree in the order of their numbers are the compilation unit and the
members. -/
theorem map_declaration_finRange (t : Tree) :
    (List.finRange t.size).map t.declaration =
      { kind := .compilationUnit, span := t.unitSpan } ::
        t.members.toList.map (·.declaration) := by
  apply List.ext_getElem
  · rw [List.length_map, List.length_finRange, List.length_cons, List.length_map]
    rfl
  · intro k hk hk'
    rw [List.getElem_map, List.getElem_finRange]
    cases k with
    | zero => rfl
    | succ k => simp [declaration]

/-- A walk through a tree made of a forest shows the compilation unit and then the labels
of the forest. -/
theorem declarations_ofForest (file : FileId) (span : Span) (f : Forest Declaration) :
    (ofForest file span f).descendants.map (ofForest file span f).declaration =
      { kind := .compilationUnit, span := span } :: f.labels := by
  rw [descendants_ofForest, map_declaration_finRange]
  have hunit : (ofForest file span f).unitSpan = span :=
    unitSpan_graft (empty file span) (empty file span).root f
  have hmembers := declarations_graft (empty file span) (empty file span).root f
  rw [hunit]
  exact congrArg _ hmembers

/-- The declarations of a tree made of a forest, by the numbers of the nodes. -/
theorem getElem?_declaration_ofForest {file : FileId} {span : Span} {f : Forest Declaration}
    (i : Fin (ofForest file span f).size) :
    ({ kind := .compilationUnit, span := span } :: f.labels)[i.val]? =
      some ((ofForest file span f).declaration i) := by
  rw [← declarations_ofForest file, descendants_ofForest]
  simp

end StubGen.Tree

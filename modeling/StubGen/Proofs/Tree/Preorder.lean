import Mathlib.Data.List.FinRange
import Mathlib.Data.List.Nodup
import StubGen.Compilation

/-!
# The order of a walk

A walk with a stack visits the nodes of a tree in the recursive pre-order, and the
pre-order from the compilation unit holds every node once. A visitor that halts sees the
part of that order up to the node at which it halts.

The bound on the number of visits that a walk carries is never reached: it is the number
of nodes.
-/

namespace StubGen

/-- Shows the elements of a list to a visitor, one after the other, until it halts. -/
def visitAll {α σ : Type} (visit : σ → α → σ × Flow) : List α → σ → σ × Flow
  | [], s => (s, .proceed)
  | a :: rest, s =>
    match visit s a with
    | (s', .halt) => (s', .halt)
    | (s', .proceed) => visitAll visit rest s'

/-- A visitor that never halts folds over the list. -/
theorem visitAll_proceed {α σ : Type} (step : σ → α → σ) (list : List α) (s : σ) :
    visitAll (fun s a => (step s a, .proceed)) list s = (list.foldl step s, .proceed) := by
  induction list generalizing s with
  | nil => rfl
  | cons a rest ih => exact ih (step s a)

/-- A visitor goes on to a second list unless it halts in the first. -/
theorem visitAll_append {α σ : Type} (visit : σ → α → σ × Flow) (first second : List α) (s : σ) :
    visitAll visit (first ++ second) s =
      match visitAll visit first s with
      | (s', .halt) => (s', .halt)
      | (s', .proceed) => visitAll visit second s' := by
  induction first generalizing s with
  | nil => rfl
  | cons a rest ih =>
    rw [List.cons_append, visitAll, visitAll]
    rcases visit s a with ⟨s', _ | _⟩
    · exact ih s'
    · rfl

/-- Showing the images of the elements of a list. -/
theorem visitAll_map {α β σ : Type} (f : α → β) (visit : σ → β → σ × Flow) (list : List α)
    (s : σ) : visitAll visit (list.map f) s = visitAll (fun s a => visit s (f a)) list s := by
  induction list generalizing s with
  | nil => rfl
  | cons a rest ih =>
    rw [List.map_cons, visitAll, visitAll]
    rcases visit s (f a) with ⟨s', _ | _⟩
    · exact ih s'
    · rfl

namespace Tree

variable {t : Tree} {i j p : Fin t.size}

/-- Nothing is above the compilation unit. -/
theorem ancestors_of_parent_none (h : t.parent i = none) : t.ancestors i = [] := by
  unfold ancestors
  split
  · rfl
  · simp_all

/-- Above a node are its parent and what is above that. -/
theorem ancestors_of_parent (h : t.parent i = some p) :
    t.ancestors i = p :: t.ancestors p := by
  rw [ancestors]
  split
  · simp_all
  · rename_i q hq
    obtain rfl := Option.some.inj (hq.symm.trans h)
    rfl

/-- A property of all nodes, if a node has it whenever its parent has it. -/
theorem parent_induction {motive : Fin t.size → Prop}
    (root : ∀ i, t.parent i = none → motive i)
    (child : ∀ i p, t.parent i = some p → motive p → motive i) (i : Fin t.size) : motive i := by
  induction hn : i.val using Nat.strong_induction_on generalizing i with
  | _ n ih =>
    cases hp : t.parent i with
    | none => exact root i hp
    | some p => exact child i p hp (ih p.val (hn ▸ parent_lt hp) p rfl)

/-- What is above a node is numbered below it. -/
theorem lt_of_mem_ancestors (h : j ∈ t.ancestors i) : j.val < i.val := by
  induction i using parent_induction with
  | root i hp => simp [ancestors_of_parent_none hp] at h
  | child i p hp ih =>
    rw [ancestors_of_parent hp] at h
    rcases List.mem_cons.mp h with rfl | h
    · exact parent_lt hp
    · exact (ih h).trans (parent_lt hp)

/-- The compilation unit is above every other node. -/
theorem root_mem_self_ancestors (i : Fin t.size) : t.root ∈ i :: t.ancestors i := by
  induction i using parent_induction with
  | root i hp =>
    rw [show i = t.root from Fin.ext (parent_eq_none_iff.mp hp)]
    exact List.mem_cons_self
  | child i p hp ih =>
    rw [ancestors_of_parent hp]
    exact List.mem_cons_of_mem _ ih

/-- The parent of a node on the way up from another one is above that one. -/
theorem parent_mem_ancestors (hp : t.parent j = some p) (h : j ∈ i :: t.ancestors i) :
    p ∈ t.ancestors i := by
  induction i using parent_induction with
  | root i hi =>
    rw [ancestors_of_parent_none hi, List.mem_singleton] at h
    simp_all
  | child i q hi ih =>
    rcases List.mem_cons.mp h with rfl | h
    · rw [ancestors_of_parent hp]
      exact List.mem_cons_self
    · rw [ancestors_of_parent hi] at h ⊢
      exact List.mem_cons_of_mem _ (ih h)

/-- On the way up from a node there is at most one child of any other node. -/
theorem eq_of_parent_eq {c d : Fin t.size} (hc : t.parent c = some p) (hd : t.parent d = some p)
    (hci : c ∈ i :: t.ancestors i) (hdi : d ∈ i :: t.ancestors i) : c = d := by
  induction i using parent_induction with
  | root i hi =>
    rw [ancestors_of_parent_none hi, List.mem_singleton] at hci hdi
    exact hci.trans hdi.symm
  | child i q hi ih =>
    -- A child of the parent of `i` is numbered above everything on the way up from there.
    have habove {a : Fin t.size} (ha : t.parent a = some q) : a ∉ t.ancestors i := by
      intro hmem
      rw [ancestors_of_parent hi] at hmem
      have hlt := parent_lt ha
      rcases List.mem_cons.mp hmem with rfl | hmem
      · exact Nat.lt_irrefl _ hlt
      · exact Nat.lt_asymm hlt (lt_of_mem_ancestors hmem)
    rcases List.mem_cons.mp hci with rfl | hci' <;> rcases List.mem_cons.mp hdi with rfl | hdi'
    · rfl
    · obtain rfl := Option.some.inj (hc.symm.trans hi)
      exact absurd hdi' (habove hd)
    · obtain rfl := Option.some.inj (hd.symm.trans hi)
      exact absurd hci' (habove hc)
    · rw [ancestors_of_parent hi] at hci' hdi'
      exact ih hci' hdi'

/-- A property of all nodes, if a node has it whenever its children have it. -/
theorem children_induction {motive : Fin t.size → Prop}
    (node : ∀ i, (∀ c ∈ t.children i, motive c) → motive i) (i : Fin t.size) : motive i := by
  induction hn : t.size - i.val using Nat.strong_induction_on generalizing i with
  | _ n ih =>
    refine node i fun c hc => ih (t.size - c.val) ?_ c rfl
    have hlt := lt_of_mem_children hc
    have hsize := c.isLt
    omega

/-- The pre-order of a node without the bookkeeping for termination. -/
theorem preorder_eq (i : Fin t.size) :
    t.preorder i = i :: (t.children i).flatMap t.preorder := by
  rw [preorder]
  simp

/-- With a node, its children are in a pre-order. -/
theorem mem_preorder_of_parent (hp : p ∈ t.preorder i) (hj : t.parent j = some p) :
    j ∈ t.preorder i := by
  induction i using children_induction with
  | node i ih =>
    rw [preorder_eq] at hp ⊢
    refine List.mem_cons_of_mem _ (List.mem_flatMap.mpr ?_)
    rcases List.mem_cons.mp hp with rfl | hp
    · exact ⟨j, mem_children.mpr hj, by rw [preorder_eq]; exact List.mem_cons_self⟩
    · obtain ⟨c, hc, hp⟩ := List.mem_flatMap.mp hp
      exact ⟨c, hc, ih c hc hp⟩

/-- The pre-order of a node holds the nodes on whose way up it lies. -/
theorem mem_preorder : j ∈ t.preorder i ↔ i ∈ j :: t.ancestors j := by
  constructor
  · intro h
    induction i using children_induction with
    | node i ih =>
      rw [preorder_eq] at h
      rcases List.mem_cons.mp h with rfl | h
      · exact List.mem_cons_self
      · obtain ⟨c, hc, hj⟩ := List.mem_flatMap.mp h
        exact List.mem_cons_of_mem _ (parent_mem_ancestors (mem_children.mp hc) (ih c hc hj))
  · intro h
    induction j using parent_induction with
    | root j hj =>
      rw [ancestors_of_parent_none hj, List.mem_singleton] at h
      rw [h, preorder_eq]
      exact List.mem_cons_self
    | child j p hj ih =>
      rcases List.mem_cons.mp h with rfl | h
      · rw [preorder_eq]
        exact List.mem_cons_self
      · rw [ancestors_of_parent hj] at h
        exact mem_preorder_of_parent (ih h) hj

/-- The children of a node are numbered upwards. -/
theorem children_pairwise (i : Fin t.size) : (t.children i).Pairwise (· < ·) :=
  (List.pairwise_lt_finRange t.size).filter _

/-- A pre-order holds no node twice. -/
theorem preorder_nodup (i : Fin t.size) : (t.preorder i).Nodup := by
  induction i using children_induction with
  | node i ih =>
    rw [preorder_eq, List.nodup_cons]
    constructor
    · intro hmem
      obtain ⟨c, hc, hi⟩ := List.mem_flatMap.mp hmem
      have hlt := lt_of_mem_children hc
      rcases List.mem_cons.mp (mem_preorder.mp hi) with rfl | hci
      · exact Nat.lt_irrefl _ hlt
      · exact Nat.lt_asymm hlt (lt_of_mem_ancestors hci)
    · refine List.nodup_flatMap.mpr ⟨ih, (children_pairwise i).imp_of_mem ?_⟩
      intro c d hc hd hcd j hjc hjd
      exact hcd.ne (eq_of_parent_eq (mem_children.mp hc) (mem_children.mp hd)
        (mem_preorder.mp hjc) (mem_preorder.mp hjd))

/-- The pre-order from the compilation unit holds every node. -/
theorem mem_preorder_root (i : Fin t.size) : i ∈ t.preorder t.root :=
  mem_preorder.mpr (root_mem_self_ancestors i)

/-- The pre-order from the compilation unit holds the nodes of the tree, each once. -/
theorem preorder_root_perm (t : Tree) : (t.preorder t.root).Perm (List.finRange t.size) := by
  apply (List.perm_ext_iff_of_nodup (preorder_nodup _) (List.nodup_finRange _)).mpr
  intro i
  exact ⟨fun _ => List.mem_finRange i, fun _ => mem_preorder_root i⟩

/-- The pre-order from the compilation unit is as long as the tree is large. -/
theorem length_preorder_root (t : Tree) : (t.preorder t.root).length = t.size := by
  rw [(preorder_root_perm t).length_eq, List.length_finRange]

/-- A walk is bounded by the number of nodes that it shows if it is not halted. -/
theorem length_flatMap_root (t : Tree) : ([t.root].flatMap t.preorder).length = t.size := by
  rw [List.flatMap_singleton, length_preorder_root]

section Walk

variable {σ : Type}

/-- With a bound that is large enough, a walk shows the pre-orders of the nodes on its
stack. -/
theorem walkFrom_eq_visitAll (visit : σ → Fin t.size → σ × Flow) (bound : Nat)
    (stack : List (Fin t.size)) (s : σ) (h : (stack.flatMap t.preorder).length ≤ bound) :
    t.walkFrom visit bound stack s = visitAll visit (stack.flatMap t.preorder) s := by
  induction bound generalizing stack s with
  | zero =>
    cases stack with
    | nil => rfl
    | cons i stack => simp [preorder_eq i] at h
  | succ bound ih =>
    cases stack with
    | nil => rfl
    | cons i stack =>
      have hnext : (i :: stack).flatMap t.preorder =
          i :: (t.children i ++ stack).flatMap t.preorder := by
        rw [List.flatMap_cons, preorder_eq, List.flatMap_append, List.cons_append]
      rw [hnext] at h ⊢
      rcases hvisit : visit s i with ⟨s', _ | _⟩
      · simp only [walkFrom, visitAll, hvisit]
        exact ih _ s' (Nat.le_of_succ_le_succ h)
      · simp only [walkFrom, visitAll, hvisit]

/-- A walk shows the nodes in the recursive pre-order until it is halted. -/
theorem walk_eq_visitAll (visit : σ → Fin t.size → σ × Flow) (s : σ) :
    t.walk visit s = visitAll visit (t.preorder t.root) s := by
  rw [walk, walkFrom_eq_visitAll visit _ _ s t.length_flatMap_root.le, List.flatMap_singleton]

end Walk

/-- A walk that is not halted visits the nodes in the recursive pre-order. -/
theorem descendants_eq_preorder (t : Tree) : t.descendants = t.preorder t.root := by
  rw [descendants, walk_eq_visitAll, visitAll_proceed]
  simp

end Tree

namespace Compilation

/-- Every node in file order, and within a file in the recursive pre-order. -/
def preorder (c : Compilation) : List NodeRef :=
  c.trees.flatMap fun t => (t.preorder t.root).map (NodeRef.mk t)

/-- The nodes of a compilation are listed in file order and in pre-order. -/
theorem nodes_eq_preorder (c : Compilation) : c.nodes = c.preorder := by
  simp only [nodes, preorder, Tree.descendants_eq_preorder]

/-- The pre-order of a compilation holds the nodes of its trees. -/
theorem mem_preorder {c : Compilation} {n : NodeRef} : n ∈ c.preorder ↔ n.tree ∈ c.trees := by
  rw [preorder, List.mem_flatMap]
  constructor
  · rintro ⟨t, ht, hn⟩
    obtain ⟨i, -, rfl⟩ := List.mem_map.mp hn
    exact ht
  · intro ht
    exact ⟨n.tree, ht, List.mem_map.mpr ⟨n.id, Tree.mem_preorder_root n.id, rfl⟩⟩

/-- A walk through a compilation shows the nodes in file order and in pre-order until it is
halted. -/
theorem walk_eq_visitAll {σ : Type} (c : Compilation) (visit : σ → NodeRef → σ × Flow) (s : σ) :
    c.walk visit s = visitAll visit c.preorder s := by
  rw [walk, preorder]
  induction c.trees generalizing s with
  | nil => rfl
  | cons t rest ih =>
    rw [walkTrees, Tree.walk_eq_visitAll, List.flatMap_cons, visitAll_append, visitAll_map]
    rcases visitAll (fun s i => visit s ⟨t, i⟩) (t.preorder t.root) s with ⟨s', _ | _⟩
    · exact ih s'
    · rfl

end Compilation

end StubGen

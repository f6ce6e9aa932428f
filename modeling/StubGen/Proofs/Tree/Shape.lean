import StubGen.Proofs.Tree.Building

/-!
# The shape of forests and of declaration trees

Forests are compared by cutting them after as many labels. More trees can be put below the
last root of a forest, and where the result can be cut as before nothing was put there.

A declaration tree records for every node only the number of its parent. That is enough:
two forests that are numbered into the same tree are the same forest. What stands below a
node is told apart from what follows it by the numbers of the parents, for a parent inside
is numbered no lower than the node itself.
-/

namespace StubGen

namespace Forest

variable {α : Type} {f f' g g' : Forest α}

/-- A sequence is as large as its parts. -/
@[simp] theorem size_append (f g : Forest α) : (f ++ g).size = f.size + g.size := by
  induction f with
  | nil => simp [size]
  | cons label children rest _ ih =>
    rw [cons_append, size, size, ih]
    omega

/-- Only a forest without trees has no labels. -/
theorem size_eq_zero_iff : f.size = 0 ↔ f = nil := by
  cases f with
  | nil => simp [size]
  | cons label children rest => simp [size]

/-- A sequence has no trees if its parts have none. -/
theorem append_eq_nil_iff : f ++ g = nil ↔ f = nil ∧ g = nil := by
  cases f with
  | nil => simp
  | cons label children rest => simp

/-- Equal sequences that are cut after equally many labels have equal parts. -/
theorem append_inj (hsize : f.size = f'.size) : f ++ g = f' ++ g' ↔ f = f' ∧ g = g' := by
  constructor
  · intro h
    induction f generalizing f' with
    | nil =>
      obtain rfl := size_eq_zero_iff.mp hsize.symm
      exact ⟨rfl, h⟩
    | cons label children rest _ ih =>
      cases f' with
      | nil => simp [size] at hsize
      | cons label' children' rest' =>
        rw [cons_append, cons_append] at h
        obtain ⟨rfl, rfl, hrest⟩ := cons.inj h
        simp only [size] at hsize
        obtain ⟨rfl, rfl⟩ := ih (by omega) hrest
        exact ⟨rfl, rfl⟩
  · intro h
    rw [h.1, h.2]

/-- The trees of a sequence are those of its parts. -/
@[simp] theorem trees_append (f g : Forest α) : (f ++ g).trees = f.trees ++ g.trees := by
  induction f with
  | nil => rfl
  | cons label children rest _ ih => rw [cons_append, trees, trees, ih, List.cons_append]

/-- The trees of a sequence and everything below them, each as its label and its
children. -/
def subtrees : Forest α → List (α × Forest α)
  | nil => []
  | cons label children rest => (label, children) :: children.subtrees ++ rest.subtrees

/-- What holds of all trees holds of the first one, of those below it and of those in the rest. -/
theorem forall_mem_subtrees_cons {holds : α × Forest α → Prop} {label : α}
    {children rest : Forest α} :
    (∀ t ∈ (cons label children rest).subtrees, holds t) ↔
      holds (label, children) ∧ (∀ t ∈ children.subtrees, holds t) ∧
        ∀ t ∈ rest.subtrees, holds t := by
  simp only [subtrees, List.cons_append, List.forall_mem_cons, List.forall_mem_append]

/-- What is in a sequence is in its parts. -/
theorem subtrees_append (f g : Forest α) : (f ++ g).subtrees = f.subtrees ++ g.subtrees := by
  induction f with
  | nil => rfl
  | cons label children rest _ ih =>
    simp only [cons_append, subtrees, ih, List.cons_append, List.append_assoc]

/-- The labels of all trees, in pre-order. -/
theorem map_fst_subtrees (f : Forest α) : f.subtrees.map (·.1) = f.labels := by
  induction f with
  | nil => rfl
  | cons label children rest ihChildren ihRest =>
    simp only [subtrees, labels, List.map_append, List.map_cons, ihChildren, ihRest]

/-- There are as many trees as labels. -/
theorem length_subtrees (f : Forest α) : f.subtrees.length = f.size := by
  rw [← length_labels, ← map_fst_subtrees, List.length_map]

/-- The labels below a tree of a sequence are among its labels, in order. -/
theorem labels_sublist_of_mem_trees {t : α × Forest α} (ht : t ∈ f.trees) :
    t.2.labels.Sublist f.labels := by
  induction f with
  | nil => exact absurd ht List.not_mem_nil
  | cons label children rest _ ih =>
    rw [labels, List.cons_append]
    rcases List.mem_cons.mp ht with rfl | hrest
    · exact (List.sublist_append_left _ _).cons _
    · exact ((ih hrest).trans (List.sublist_append_right _ _)).cons _

/-- What is below one of the trees is below the sequence. -/
theorem subtrees_subset_of_mem_trees {t : α × Forest α} (ht : t ∈ f.trees) :
    t.2.subtrees ⊆ f.subtrees := by
  induction f with
  | nil => simp [trees] at ht
  | cons label children rest _ ih =>
    intro u hu
    rw [trees, List.mem_cons] at ht
    rw [subtrees, List.mem_append, List.mem_cons]
    rcases ht with rfl | ht
    · exact Or.inl (Or.inr hu)
    · exact Or.inr (ih ht hu)

/-- A forest with more trees below its last root. -/
def extendLast : Forest α → Forest α → Forest α
  | nil, _ => nil
  | cons label children nil, more => cons label (children ++ more) nil
  | cons label children rest, more => cons label children (rest.extendLast more)

/-- More trees go below the last root. -/
theorem extendLast_cons (label : α) (children : Forest α) {rest : Forest α} (h : rest ≠ nil)
    (more : Forest α) :
    (cons label children rest).extendLast more = cons label children (rest.extendLast more) := by
  cases rest with
  | nil => exact absurd rfl h
  | cons => rfl

/-- With nothing to add a forest stays as it is. -/
@[simp] theorem extendLast_nil (f : Forest α) : f.extendLast nil = f := by
  induction f with
  | nil => rfl
  | cons label children rest _ ih =>
    cases rest with
    | nil => rw [extendLast, append_nil]
    | cons => rw [extendLast_cons label children (by simp), ih]

/-- Trees added below the last root of the second part are added below the last root of the
whole. -/
theorem append_extendLast (f : Forest α) {g : Forest α} (h : g ≠ nil) (more : Forest α) :
    f ++ g.extendLast more = (f ++ g).extendLast more := by
  induction f with
  | nil => rfl
  | cons label children rest _ ih =>
    have hrest : rest ++ g ≠ nil := fun hnil => h (append_eq_nil_iff.mp hnil).2
    rw [cons_append, cons_append, extendLast_cons label children hrest, ih]

/-- Where a sequence can be cut after the labels that were there before, nothing was added
below its last root. -/
theorem extendLast_cut {more rest rest' : Forest α} (hf : f ≠ nil) (hsize : f.size = g.size)
    (h : f.extendLast more ++ rest = g ++ rest') : more = nil := by
  induction f generalizing g with
  | nil => exact absurd rfl hf
  | cons label children others _ ih =>
    cases g with
    | nil => simp [size] at hsize
    | cons label' children' others' =>
      simp only [size] at hsize
      by_cases hothers : others = nil
      · subst hothers
        rw [extendLast, cons_append, cons_append] at h
        obtain ⟨-, hchildren, -⟩ := cons.inj h
        rw [← hchildren, size_append, size] at hsize
        exact size_eq_zero_iff.mp (by omega)
      · rw [extendLast_cons label children hothers, cons_append, cons_append] at h
        obtain ⟨-, rfl, hrest⟩ := cons.inj h
        exact ih hothers (by omega) hrest

end Forest

namespace Tree

/-- The members that a forest below `parent` becomes when its first node is given the number
`next`. -/
def numbered (next parent : Nat) : Forest Declaration → List Member
  | .nil => []
  | .cons d below rest =>
    ⟨d, parent⟩ ::
      (numbered (next + 1) next below ++ numbered (next + 1 + below.size) parent rest)

/-- As many members as labels. -/
theorem length_numbered (next parent : Nat) (f : Forest Declaration) :
    (numbered next parent f).length = f.size := by
  induction f generalizing next parent with
  | nil => rfl
  | cons d below rest ihBelow ihRest =>
    rw [numbered, List.length_cons, List.length_append, ihBelow, ihRest, Forest.size]
    omega

/-- The members of a sequence are those of its parts, numbered on. -/
theorem numbered_append (next parent : Nat) (f g : Forest Declaration) :
    numbered next parent (f ++ g) =
      numbered next parent f ++ numbered (next + f.size) parent g := by
  induction f generalizing next with
  | nil => rfl
  | cons d below rest _ ih =>
    have hnumber : next + 1 + below.size + rest.size =
        next + (Forest.cons d below rest).size := by
      rw [Forest.size]
      omega
    simp only [Forest.cons_append, numbered, ih, hnumber, List.cons_append, List.append_assoc]

/-- Grafting adds a node for each label. -/
theorem size_graft (t : Tree) (parent : Fin t.size) (f : Forest Declaration) :
    (t.graft parent f).val.size = t.size + f.size := by
  induction f generalizing t with
  | nil => rfl
  | cons d below rest ihBelow ihRest =>
    rw [graft, Forest.size]
    simp only [ihRest, ihBelow, size_push]
    omega

/-- Grafting adds the members of the forest. -/
theorem members_graft (t : Tree) (parent : Fin t.size) (f : Forest Declaration) :
    (t.graft parent f).val.members.toList =
      t.members.toList ++ numbered t.size parent.val f := by
  induction f generalizing t with
  | nil => simp [graft, numbered]
  | cons d below rest ihBelow ihRest =>
    have hbelow := ihBelow (t.push parent d) ⟨t.size, by rw [size_push]; omega⟩
    rw [graft]
    simp only [ihRest, hbelow, size_graft, numbered, size_push]
    simp [push]

/-- The members of the tree of a forest. -/
theorem members_ofForest (file : FileId) (span : Span) (f : Forest Declaration) :
    (ofForest file span f).members.toList = numbered 1 0 f := by
  rw [ofForest, members_graft]
  rfl

/-- No parent is numbered below the lowest one around. -/
theorem le_parent_of_mem_numbered {low next parent : Nat} {f : Forest Declaration} {m : Member}
    (hparent : low ≤ parent) (hnext : low ≤ next) (hm : m ∈ numbered next parent f) :
    low ≤ m.parent := by
  induction f generalizing next parent with
  | nil => simp [numbered] at hm
  | cons d below rest ihBelow ihRest =>
    rw [numbered, List.mem_cons, List.mem_append] at hm
    rcases hm with rfl | hm | hm
    · exact hparent
    · exact ihBelow hnext (by omega) hm
    · exact ihRest hparent (by omega) hm

/-- The members below a node are the first ones whose parents are numbered no lower. -/
theorem takeWhile_numbered {next next' parent : Nat} (hparent : parent < next)
    (below rest : Forest Declaration) :
    (numbered (next + 1) next below ++ numbered next' parent rest).takeWhile
      (fun m => decide (next ≤ m.parent)) = numbered (next + 1) next below := by
  have hbelow : ∀ m ∈ numbered (next + 1) next below, decide (next ≤ m.parent) = true := by
    intro m hm
    exact decide_eq_true (le_parent_of_mem_numbered (Nat.le_refl _) (Nat.le_succ _) hm)
  have hrest : (numbered next' parent rest).takeWhile (fun m => decide (next ≤ m.parent)) = [] := by
    cases rest with
    | nil => rfl
    | cons d below' rest' =>
      rw [numbered, List.takeWhile_cons_of_neg]
      simpa using hparent
  rw [List.takeWhile_append_of_pos hbelow, hrest, List.append_nil]

/-- A forest can be told from its members. -/
theorem numbered_injective {next parent : Nat} (hparent : parent < next)
    {f g : Forest Declaration} (h : numbered next parent f = numbered next parent g) : f = g := by
  induction f generalizing next parent g with
  | nil =>
    cases g with
    | nil => rfl
    | cons d below rest => simp [numbered] at h
  | cons d below rest ihBelow ihRest =>
    cases g with
    | nil => simp [numbered] at h
    | cons d' below' rest' =>
      rw [numbered, numbered] at h
      obtain ⟨hd, hmembers⟩ := List.cons.inj h
      have hbelow : numbered (next + 1) next below = numbered (next + 1) next below' := by
        rw [← takeWhile_numbered hparent below rest, hmembers, takeWhile_numbered hparent]
      obtain rfl := ihBelow (Nat.lt_succ_self next) hbelow
      have hrest := List.append_cancel_left hmembers
      obtain rfl := ihRest (by omega) hrest
      rw [(Member.mk.inj hd).1]

/-- Forests that become the same tree are the same. -/
theorem ofForest_inj {file : FileId} {span : Span} {f g : Forest Declaration} :
    ofForest file span f = ofForest file span g ↔ f = g := by
  constructor
  · intro h
    have hmembers := members_ofForest file span f
    rw [h, members_ofForest] at hmembers
    exact (numbered_injective Nat.zero_lt_one hmembers).symm
  · intro h
    rw [h]

end Tree

end StubGen

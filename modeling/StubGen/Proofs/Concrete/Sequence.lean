import StubGen.Proofs.Concrete.Members
import StubGen.Proofs.Tree.Shape

/-!
# Sequences of members

The members of one sequence of nodes after another are those of the first, except that
what the second declares before its first file-scoped namespace is taken in by the last
file-scoped namespace of the first. So a file-scoped namespace has below it everything
that stands between it and the next one beside it.
-/

namespace StubGen

namespace Concrete

namespace Members

/-- Members of which the second are found later in the same sequence. -/
def followedBy (first second : Members) : Members :=
  match first.adopting with
  | .nil => second.after first.own
  | adopting => { own := first.own, adopting := adopting.extendLast second.own ++ second.adopting }

variable {first second : Members}

/-- Without a file-scoped namespace before them, members are as they are alone. -/
theorem followedBy_of_nil (h : first.adopting = .nil) :
    first.followedBy second = second.after first.own := by
  rw [followedBy, h]

/-- The last file-scoped namespace before them takes members in. -/
theorem followedBy_of_ne_nil (h : first.adopting ≠ .nil) :
    first.followedBy second =
      { own := first.own, adopting := first.adopting.extendLast second.own ++ second.adopting } := by
  unfold followedBy
  split
  · rename_i hnil
    exact absurd hnil h
  · rfl

/-- What comes before both comes before the first. -/
theorem followedBy_after (earlier : Forest Declaration) :
    (first.after earlier).followedBy second = (first.followedBy second).after earlier := by
  by_cases h : first.adopting = .nil
  · have hafter : (first.after earlier).adopting = .nil := h
    rw [followedBy_of_nil h, followedBy_of_nil hafter]
    simp only [after, Forest.append_assoc]
  · have hafter : (first.after earlier).adopting ≠ .nil := h
    rw [followedBy_of_ne_nil h, followedBy_of_ne_nil hafter]
    rfl

/-- Members that start with a file-scoped namespace stand beside the ones before them. -/
theorem all_followedBy (h : second.own = .nil) :
    (first.followedBy second).all = first.all ++ second.all := by
  by_cases hfirst : first.adopting = .nil
  · rw [followedBy_of_nil hfirst]
    simp [all, after, hfirst, h]
  · rw [followedBy_of_ne_nil hfirst]
    simp [all, h, Forest.append_assoc]

end Members

variable {source : String} {f : Forest ConcreteNode}

/-- The members of a sequence are those of its parts, one after the other. -/
theorem members_append (source : String) (f g : Forest ConcreteNode) :
    members source (f ++ g) = (members source f).followedBy (members source g) := by
  induction f with
  | nil =>
    rw [Forest.nil_append, members, Members.followedBy_of_nil rfl]
    rfl
  | cons node below rest _ ih =>
    rw [Forest.cons_append]
    by_cases hrole : node.role = .fileScopedNamespace
    · have hfirst : (members source (.cons node below rest)).adopting ≠ .nil := by
        rw [members_cons_of_fileScoped hrole]
        simp
      rw [Members.followedBy_of_ne_nil hfirst, members_cons_of_fileScoped hrole,
        members_cons_of_fileScoped hrole, ih]
      by_cases hrest : (members source rest).adopting = .nil
      · simp [Members.followedBy_of_nil hrest, hrest, Members.after, Forest.extendLast,
          Forest.append_assoc]
      · simp [Members.followedBy_of_ne_nil hrest, Forest.extendLast_cons _ _ hrest]
    · rw [members_cons_of_not_fileScoped hrole, members_cons_of_not_fileScoped hrole, ih,
        Members.followedBy_after]

/-- Members are taken in exactly if a file-scoped namespace is in the sequence. -/
theorem adopting_eq_nil_iff :
    (members source f).adopting = .nil ↔ ∀ t ∈ f.trees, t.1.role ≠ .fileScopedNamespace := by
  induction f with
  | nil => simp [members, Forest.trees]
  | cons node below rest _ ih =>
    rw [Forest.trees, List.forall_mem_cons]
    by_cases hrole : node.role = .fileScopedNamespace
    · simp [members_cons_of_fileScoped hrole, hrole]
    · rw [members_cons_of_not_fileScoped hrole, Members.after, ih]
      simp [hrole]

/-- The nodes of a sequence before its first file-scoped namespace. -/
def leading (f : Forest ConcreteNode) : List Concrete :=
  (f.trees.takeWhile fun t => decide (t.1.role ≠ .fileScopedNamespace)).map fun t => ⟨t.1, t.2⟩

/-- Nothing is declared before the first file-scoped namespace exactly if no node before it
adds anything. -/
theorem own_eq_nil_iff :
    (members source f).own = .nil ↔ ∀ c ∈ leading f, c.contribution source = .nil := by
  unfold leading
  induction f with
  | nil => simp [members, Forest.trees]
  | cons node below rest _ ih =>
    rw [Forest.trees]
    by_cases hrole : node.role = .fileScopedNamespace
    · rw [members_cons_of_fileScoped hrole, List.takeWhile_cons_of_neg (by simp [hrole])]
      simp
    · rw [members_cons_of_not_fileScoped hrole, List.takeWhile_cons_of_pos (by simp [hrole]),
        List.map_cons, List.forall_mem_cons, ← ih, Members.after, Forest.append_eq_nil_iff]

/-- A file-scoped namespace has below it what it holds and everything that stands between it
and the next one beside it. -/
theorem members_of_adoption {before between after below : Forest ConcreteNode}
    {node : ConcreteNode} (hrole : node.role = .fileScopedNamespace)
    (hbetween : ∀ t ∈ between.trees, t.1.role ≠ .fileScopedNamespace)
    (hafter : leading after = []) :
    (members source (before ++ .cons node below (between ++ after))).all =
      (members source before).all ++
        .cons ((⟨node, below⟩ : Concrete).namespaceDeclaration source)
          ((⟨node, below⟩ : Concrete).openedMembers source ++ (members source between).all)
          (members source after).all := by
  have hadopting : (members source between).adopting = .nil := adopting_eq_nil_iff.mpr hbetween
  have hown : (members source after).own = .nil := by
    rw [own_eq_nil_iff, hafter]
    simp
  rw [members_append, members_cons_of_fileScoped hrole, Members.all_followedBy rfl,
    members_append, Members.followedBy_of_nil hadopting]
  simp [Members.all, Members.after, hadopting, hown]

end Concrete

end StubGen

import StubGen.Proofs.Model.Scopes
import StubGen.Proofs.Namespace.RootMark

/-!
# What a written attribute name binds to

An attribute application binds to a class exactly if one of the full names that the
written name may stand for is the name of the class, with or without the ending that an
application may leave out.

The written name, after a root mark, and the name of the class are dotted names. Nothing
is assumed about the texts in the trees.
-/

namespace StubGen

open Text

/-- The full names that a written name may stand for at a node. -/
inductive Compilation.Candidate (c : Compilation) (t : Tree) (i : Fin t.size) :
    String → String → Prop
  /-- A rooted name stands for itself. -/
  | rooted (name : String) : Candidate c t i (rootMark ++ name) name
  /-- Any other name may stand in a namespace around its place, the global one included. -/
  | enclosing {name : String} {scope : Namespace} (hunrooted : ¬ IsRooted name)
      (hscope : scope.segments <+: ((c.model t).enclosingNamespace i).segments) :
      Candidate c t i name (joined "." (scope.segments ++ [name]))
  /-- A simple name may also stand in an imported namespace. -/
  | imported {name : String} {scope : Namespace} (hunrooted : ¬ IsRooted name)
      (hsimple : '.' ∉ name.toList) (hscope : c.Imports t i scope) :
      Candidate c t i name (joined "." (scope.segments ++ [name]))

/-- A full name is the name of an attribute class, possibly without its ending. -/
def NamesClass (full metadata : String) : Prop :=
  full = metadata ∨ full ++ attributeEnding = metadata

/-- The ending of attribute classes keeps a segment a segment. -/
theorem dot_not_mem_append_attributeEnding {s : String} (h : '.' ∉ s.toList) :
    '.' ∉ (s ++ attributeEnding).toList := by
  rw [String.toList_append, List.mem_append, not_or]
  exact ⟨h, by decide⟩

/-- A dotted name names a class exactly if the qualifiers agree and the last segment names
that of the class. -/
theorem namesClass_joined {first second : List String} {s r : String}
    (hfirst : ∀ a ∈ first, IsSegment a) (hsecond : ∀ a ∈ second, IsSegment a)
    (hs : '.' ∉ s.toList) (hr : '.' ∉ r.toList) :
    NamesClass (joined "." (first ++ [s])) (joined "." (second ++ [r])) ↔
      joined "." first = joined "." second ∧ NamesClass s r := by
  unfold NamesClass
  rw [joined_append_ending, joined_append_singleton_inj hfirst hsecond hs hr,
    joined_append_singleton_inj hfirst hsecond (dot_not_mem_append_attributeEnding hs) hr]
  exact and_or_left.symm

/-- A name qualified by a namespace names a class exactly if the namespace qualifies what
comes before the last segment, and that segment names the class. -/
theorem namesClass_qualified {scope : Namespace} {first second : List String} {s r : String}
    (hscope : scope.Proper) (hfirst : ∀ a ∈ first, IsSegment a)
    (hsecond : ∀ a ∈ second, IsSegment a) (hs : '.' ∉ s.toList) (hr : '.' ∉ r.toList) :
    NamesClass (joined "." (scope.segments ++ first ++ [s])) (joined "." (second ++ [r])) ↔
      scope.qualify (joined "." first) = joined "." second ∧ NamesClass s r := by
  have hproper : ∀ a ∈ scope.segments ++ first, IsSegment a :=
    List.forall_mem_append.mpr ⟨hscope, hfirst⟩
  rw [namesClass_joined hproper hsecond hs hr, Namespace.qualify_joined scope hfirst]

/-- Comparing simple names is comparing the last segments. -/
theorem simpleNameMatches_joined {written : String} {first : List String} {s r : String}
    (hwritten : withoutRootMark written = joined "." (first ++ [s])) (hs : '.' ∉ s.toList)
    (second : List String) (hr : '.' ∉ r.toList) :
    simpleNameMatches written (joined "." (second ++ [r])) = true ↔ NamesClass s r := by
  unfold simpleNameMatches NamesClass
  rw [hwritten, qualifierAndName_joined first hs, qualifierAndName_joined second hr]
  simp only [Bool.or_eq_true, beq_iff_eq]

namespace Compilation

variable {c : Compilation} {t : Tree} {i : Fin t.size}

/-- A rooted name has one candidate. -/
theorem candidate_rooted {name full : String} :
    c.Candidate t i (rootMark ++ name) full ↔ full = name := by
  constructor
  · intro h
    generalize hwritten : rootMark ++ name = written at h
    cases h with
    | rooted => exact ((String.append_right_inj rootMark).mp hwritten).symm
    | enclosing hunrooted => exact absurd ⟨name, hwritten⟩ hunrooted
    | imported hunrooted => exact absurd ⟨name, hwritten⟩ hunrooted
  · intro h
    rw [h]
    exact .rooted name

/-- Any other name has one candidate for each namespace in which it is looked up. -/
theorem candidate_unrooted {segments : List String} {s full : String}
    (hsegments : ∀ a ∈ segments, IsSegment a) (hs : '.' ∉ s.toList)
    (hunrooted : ¬ IsRooted (joined "." (segments ++ [s]))) :
    c.Candidate t i (joined "." (segments ++ [s])) full ↔
      ∃ scope ∈ (c.model t).lookupScopes i (joined "." segments == ""),
        joined "." (scope.segments ++ segments ++ [s]) = full := by
  have hjoined (scope : Namespace) :
      joined "." (scope.segments ++ [joined "." (segments ++ [s])]) =
        joined "." (scope.segments ++ segments ++ [s]) := by
    rw [joined_append_joined "." _ (by simp), List.append_assoc]
  have hsimple : '.' ∉ (joined "." (segments ++ [s])).toList ↔
      (joined "." segments == "") = true := by
    rw [dot_mem_joined_iff hs, not_not, beq_iff_eq, joined_eq_empty_iff hsegments]
  constructor
  · intro h
    generalize hwritten : joined "." (segments ++ [s]) = written at h
    cases h with
    | rooted => exact absurd ⟨full, hwritten.symm⟩ hunrooted
    | enclosing _ hscope =>
      refine ⟨_, Model.mem_lookupScopes.mpr (Or.inl hscope), ?_⟩
      rw [← hjoined, hwritten]
    | imported _ hdot hscope =>
      rw [← hwritten, hsimple] at hdot
      refine ⟨_, Model.mem_lookupScopes.mpr (Or.inr ⟨hdot, Model.mem_usings.mpr hscope⟩), ?_⟩
      rw [← hjoined, hwritten]
  · intro h
    obtain ⟨scope, hscope, hfull⟩ := h
    rw [← hfull, ← hjoined]
    rcases Model.mem_lookupScopes.mp hscope with hscope | ⟨hdot, hscope⟩
    · exact .enclosing hunrooted hscope
    · exact .imported hunrooted (hsimple.mpr hdot) (Model.mem_usings.mp hscope)

/-- The namespaces in which a name is looked up have segments that can be told apart. -/
theorem lookupScopes_proper {withUsings : Bool} {scope : Namespace}
    (h : scope ∈ (c.model t).lookupScopes i withUsings) : scope.Proper := by
  rcases Model.mem_lookupScopes.mp h with houter | ⟨-, himported⟩
  · exact (Model.enclosingNamespace_proper (m := c.model t) i).outer houter
  · cases Model.mem_usings.mp himported with
    | beside => exact Namespace.ofDotted_proper _
    | everywhere => exact Namespace.ofDotted_proper _

/-- An attribute application binds to a class exactly if a candidate for the written name
names the class. -/
theorem attributeBinds_iff_candidate (c : Compilation) (t : Tree) (i : Fin t.size)
    {written metadata : String} (hwritten : IsDotted (withoutRootMark written))
    (hmetadata : IsDotted metadata) :
    (c.model t).attributeBinds i written metadata = true ↔
      ∃ full, c.Candidate t i written full ∧
        (full = metadata ∨ full ++ attributeEnding = metadata) := by
  change _ ↔ ∃ full, c.Candidate t i written full ∧ NamesClass full metadata
  obtain ⟨second, r, hsecond, hr, rfl⟩ := hmetadata.exists_last
  obtain ⟨first, s, hfirst, hs, hsegments⟩ := hwritten.exists_last
  have hsimple := simpleNameMatches_joined hsegments.symm hs.no_dot second hr.no_dot
  unfold Model.attributeBinds
  rw [Bool.and_eq_true, hsimple, qualifierAndName_joined second hr.no_dot]
  by_cases hrooted : IsRooted written
  · obtain ⟨name, rfl⟩ := hrooted
    have hafter : afterStart? rootMark (rootMark ++ name) = some name :=
      afterStart?_eq_some.mpr rfl
    have hname : name = joined "." (first ++ [s]) := by
      rw [hsegments, withoutRootMark, hafter, Option.getD_some]
    simp only [hafter, candidate_rooted, exists_eq_left]
    rw [hname, namesClass_joined hfirst hsecond hs.no_dot hr.no_dot,
      qualifierAndName_joined first hs.no_dot, beq_iff_eq]
    exact and_comm
  · have hafter := afterStart?_eq_none_of_not_isRooted hrooted
    obtain rfl : written = joined "." (first ++ [s]) := by
      rw [hsegments, withoutRootMark, hafter, Option.getD_none]
    simp only [hafter, qualifierAndName_joined first hs.no_dot, List.any_eq_true, beq_iff_eq,
      candidate_unrooted hfirst hs.no_dot hrooted]
    constructor
    · intro h
      obtain ⟨hnames, scope, hscope, hqualifier⟩ := h
      have hclass := (namesClass_qualified (lookupScopes_proper hscope) hfirst hsecond
        hs.no_dot hr.no_dot).mpr ⟨hqualifier, hnames⟩
      exact ⟨_, ⟨scope, hscope, rfl⟩, hclass⟩
    · intro h
      obtain ⟨full, ⟨scope, hscope, rfl⟩, hclass⟩ := h
      obtain ⟨hqualifier, hnames⟩ := (namesClass_qualified (lookupScopes_proper hscope) hfirst
        hsecond hs.no_dot hr.no_dot).mp hclass
      exact ⟨hnames, scope, hscope, hqualifier⟩

/-- A file that has a class below a using directive. -/
def importingFile : Tree :=
  Tree.ofForest ⟨0⟩ {} (.cons (.ofUsing "Sample.Greetings" false {}) .nil
    (.cons { kind := .typeDeclaration .classType, name := "Program" } .nil .nil))

/-- An attribute of the class is found through the using directive. -/
theorem attributeBinds_of_using_directive :
    IsDotted (withoutRootMark "Hello") ∧ IsDotted "Sample.Greetings.HelloAttribute" ∧
      ∃ full, Candidate ⟨[importingFile]⟩ importingFile ⟨2, by decide⟩ "Hello" full ∧
        (full = "Sample.Greetings.HelloAttribute" ∨
          full ++ attributeEnding = "Sample.Greetings.HelloAttribute") := by
  have hwritten : IsDotted (withoutRootMark "Hello") :=
    ⟨["Hello"], by decide +kernel⟩
  have hmetadata : IsDotted "Sample.Greetings.HelloAttribute" :=
    ⟨["Sample", "Greetings", "HelloAttribute"], by decide +kernel⟩
  refine ⟨hwritten, hmetadata, ?_⟩
  exact (attributeBinds_iff_candidate ⟨[importingFile]⟩ importingFile ⟨2, by decide⟩
    hwritten hmetadata).mp (by decide +kernel)

end Compilation

end StubGen

import Mathlib.Data.List.Chain
import Mathlib.Data.List.Infix
import StubGen.Namespace
import StubGen.Proofs.Text.Dotted

/-!
# Namespaces as sequences of segments

The namespaces around a namespace are the prefixes of its segments, met one after the other
on the way to the global namespace, and qualifying a name puts the segments of the namespace
before those of the name.

That the segments are not empty and hold no dot is not part of the type. Namespaces that
are read off a text have such segments.
-/

namespace StubGen.Namespace

open Text

/-- A namespace whose segments can be told apart in its dotted form. -/
def Proper (n : Namespace) : Prop := ∀ s ∈ n.segments, IsSegment s

/-- A namespace read off a text is proper, however many dots the text has. -/
theorem ofDotted_proper (name : String) : (ofDotted name).Proper := by
  intro s hs
  obtain ⟨hsplit, hne⟩ := List.mem_filter.mp hs
  obtain ⟨piece, hpiece, rfl⟩ := List.mem_map.mp hsplit
  refine ⟨by simpa using hne, ?_⟩
  rw [String.toList_ofList]
  exact not_mem_of_mem_pieces '.' _ piece hpiece

/-- A prefix of the segments of a proper namespace is proper. -/
theorem Proper.outer {n outer : Namespace} (h : n.Proper)
    (houter : outer.segments <+: n.segments) : outer.Proper :=
  fun s hs => h s (houter.subset hs)

/-- Namespaces are equal if their segments are. -/
theorem eq_of_segments_eq {n k : Namespace} (h : n.segments = k.segments) : n = k := by
  cases n
  cases k
  exact congrArg Namespace.mk h

/-- No namespace contains the global one. -/
theorem containing?_nil : containing? ⟨[]⟩ = none := if_pos rfl

/-- A namespace is directly contained in the one without its last segment. -/
theorem containing?_concat (outer : List String) (s : String) :
    containing? ⟨outer ++ [s]⟩ = some ⟨outer⟩ := by
  rw [containing?, if_neg (by simp), List.dropLast_concat]

/-- What holds of the global namespace and passes on from a namespace to those directly
inside it holds of every namespace. -/
@[elab_as_elim]
theorem inward_induction {motive : Namespace → Prop} (outermost : motive ⟨[]⟩)
    (inside : ∀ outer s, motive ⟨outer⟩ → motive ⟨outer ++ [s]⟩) (n : Namespace) : motive n := by
  obtain ⟨segments⟩ := n
  induction segments using List.reverseRecOn with
  | nil => exact outermost
  | append_singleton outer s ih => exact inside outer s ih

/-- There is nothing around the global namespace. -/
theorem allContaining_nil : allContaining ⟨[]⟩ = [] := by
  rw [allContaining]
  split
  · rfl
  · rename_i outer houter
    exact absurd (containing?_nil.symm.trans houter) (by simp)

/-- Around any other namespace are the one without its last segment and what is around
that. -/
theorem allContaining_concat (outer : List String) (s : String) :
    allContaining ⟨outer ++ [s]⟩ = ⟨outer⟩ :: allContaining ⟨outer⟩ := by
  rw [allContaining]
  split
  · rename_i hnone
    exact absurd (hnone.symm.trans (containing?_concat outer s)) (by simp)
  · rename_i next hnext
    obtain rfl := Option.some.inj (hnext.symm.trans (containing?_concat outer s))
    rfl

/-- The namespaces around a namespace and the namespace itself are the prefixes of its
segments. -/
theorem mem_self_allContaining {n outer : Namespace} :
    outer ∈ n :: n.allContaining ↔ outer.segments <+: n.segments := by
  induction n using inward_induction with
  | outermost =>
    rw [allContaining_nil, List.mem_singleton, List.prefix_nil]
    exact ⟨congrArg segments, eq_of_segments_eq⟩
  | inside inner s ih =>
    rw [allContaining_concat, List.mem_cons, ih, List.prefix_concat_iff]
    exact or_congr_left ⟨congrArg segments, eq_of_segments_eq⟩

/-- The namespaces met on the way out of a namespace, one containing namespace at a time. -/
structure WayOut (n : Namespace) (visited : List Namespace) : Prop where
  /-- Each namespace is directly contained in the next one. -/
  steps : (n :: visited).IsChain fun inner outer => inner.containing? = some outer
  /-- The last one is the global namespace, from which no step leads on. -/
  ends : (n :: visited).getLast? = some globalNamespace ∧ globalNamespace.containing? = none
  /-- The namespaces on the way are the proper prefixes. -/
  mem_iff : ∀ outer, outer ∈ visited ↔ outer.segments <+: n.segments ∧ outer ≠ n
  /-- Longer prefixes come first. -/
  longestFirst : (n :: visited).Pairwise fun inner outer =>
    outer.segments.length < inner.segments.length

/-- The namespaces around a namespace are reached step by step. -/
theorem isChain_allContaining (n : Namespace) :
    (n :: n.allContaining).IsChain fun inner outer => inner.containing? = some outer := by
  induction n using inward_induction with
  | outermost =>
    rw [allContaining_nil]
    exact .singleton _
  | inside outer s ih =>
    rw [allContaining_concat]
    exact .cons_cons (containing?_concat outer s) ih

/-- The last of the namespaces around a namespace is the global one. -/
theorem getLast?_allContaining (n : Namespace) :
    (n :: n.allContaining).getLast? = some globalNamespace := by
  induction n using inward_induction with
  | outermost =>
    rw [allContaining_nil]
    rfl
  | inside outer s ih => rw [allContaining_concat, List.getLast?_cons_cons, ih]

/-- On the way outwards the namespaces lose segments. -/
theorem pairwise_allContaining (n : Namespace) :
    (n :: n.allContaining).Pairwise fun inner outer =>
      outer.segments.length < inner.segments.length := by
  have hsteps := (isChain_allContaining n).imp fun _ _ => length_containing_lt
  have hlengths : ((n :: n.allContaining).map (·.segments.length)).IsChain (· > ·) :=
    (List.isChain_map _).mpr hsteps
  exact List.pairwise_map.mp hlengths.pairwise

/-- The namespaces around a namespace are the way out of it. -/
theorem wayOut_allContaining (n : Namespace) : n.WayOut n.allContaining where
  steps := isChain_allContaining n
  ends := ⟨getLast?_allContaining n, rfl⟩
  longestFirst := pairwise_allContaining n
  mem_iff := by
    intro outer
    rw [← mem_self_allContaining, List.mem_cons]
    constructor
    · intro h
      have hlength := (List.pairwise_cons.mp (pairwise_allContaining n)).1 outer h
      exact ⟨Or.inr h, fun hsame => absurd (hsame ▸ hlength) (Nat.lt_irrefl _)⟩
    · intro h
      exact h.1.resolve_left h.2

/-- Qualifying a dotted name puts its segments behind those of the namespace. An empty
name stands for no segments. -/
theorem qualify_joined (scope : Namespace) {segments : List String}
    (hsegments : ∀ s ∈ segments, IsSegment s) :
    scope.qualify (joined "." segments) = joined "." (scope.segments ++ segments) := by
  unfold qualify isGlobal minimalDisplay
  by_cases hglobal : scope.segments = []
  · rw [hglobal]
    rfl
  · rw [if_neg (by simpa using hglobal)]
    by_cases hnil : segments = []
    · rw [hnil, List.append_nil]
      rfl
    · rw [if_neg (mt (joined_eq_empty_iff hsegments).mp hnil), joined_append hglobal hnil]

end StubGen.Namespace

import StubGen.Text.Pieces

/-!
# Namespaces

A namespace is the list of its segments, outermost first; the global namespace has none.
Besides its textual forms the module holds the namespaces around a namespace, and the name
that a text stands for inside one.
-/

namespace StubGen

/-- What roots a name in the global namespace. -/
def rootMark : String := "global::"

/-- A namespace by its segments, outermost first. -/
structure Namespace where
  segments : List String := []
deriving DecidableEq, Repr, Inhabited

namespace Namespace

/-- The global namespace. -/
def globalNamespace : Namespace := {}

/-- The namespace of a dotted name. Empty segments are dropped. -/
def ofDotted (name : String) : Namespace :=
  ⟨(Text.splitAt '.' name).filter (· != "")⟩

/-- Whether this is the global namespace. -/
def isGlobal (n : Namespace) : Bool := n.segments.isEmpty

/-- The innermost segment, empty for the global namespace. -/
def name (n : Namespace) : String := n.segments.getLastD ""

/-- The segments with dots between them. -/
def minimalDisplay (n : Namespace) : String := Text.joined "." n.segments

/-- The dotted name under the root. -/
def fullDisplay (n : Namespace) : String := rootMark ++ n.minimalDisplay

/-- The namespace around this one. There is none around the global namespace. -/
def containing? (n : Namespace) : Option Namespace :=
  if n.segments = [] then none else some ⟨n.segments.dropLast⟩

/-- A containing namespace has fewer segments. -/
theorem length_containing_lt {n outer : Namespace} (h : n.containing? = some outer) :
    outer.segments.length < n.segments.length := by
  unfold containing? at h
  split at h
  · simp at h
  · rename_i hne
    have := List.length_pos_iff.mpr hne
    simp only [Option.some.injEq] at h
    subst h
    simp only [List.length_dropLast]
    omega

/-- The namespaces around this one, innermost first, the global one last. -/
def allContaining (n : Namespace) : List Namespace :=
  match _outward : n.containing? with
  | none => []
  | some outer => outer :: outer.allContaining
termination_by n.segments.length
decreasing_by exact length_containing_lt _outward

/-- The full name of a name used inside a namespace. -/
def qualify (scope : Namespace) (name : String) : String :=
  if scope.isGlobal then name
  else if name = "" then scope.minimalDisplay
  else scope.minimalDisplay ++ "." ++ name

end Namespace

/-- The name without one leading root mark. -/
def withoutRootMark (name : String) : String :=
  (Text.afterStart? rootMark name).getD name

end StubGen

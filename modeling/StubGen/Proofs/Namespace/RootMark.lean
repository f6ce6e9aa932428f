import StubGen.Namespace
import StubGen.Proofs.Text.Dotted

/-!
# Names under the root mark

Taking the root mark off a name takes off one mark. What is left may begin with another one
if a segment was written with a mark of its own: the type of a segment does not exclude that.
A segment in which no two colons follow each other does not begin with the mark.
-/

namespace StubGen

open Text

/-- A name rooted in the global namespace. -/
def IsRooted (name : String) : Prop := ∃ rest, rootMark ++ rest = name

/-- A rooted name begins with the characters of the mark. -/
theorem isRooted_iff_toList {name : String} :
    IsRooted name ↔ rootMark.toList <+: name.toList := by
  constructor
  · intro h
    obtain ⟨rest, rfl⟩ := h
    exact ⟨rest.toList, String.toList_append.symm⟩
  · intro h
    obtain ⟨rest, hrest⟩ := h
    refine ⟨String.ofList rest, ?_⟩
    rw [← String.toList_inj, String.toList_append, String.toList_ofList, hrest]

instance (name : String) : Decidable (IsRooted name) :=
  decidable_of_iff _ isRooted_iff_toList.symm

/-- Without a root mark there is nothing to take off. -/
theorem afterStart?_eq_none_of_not_isRooted {name : String} (h : ¬ IsRooted name) :
    afterStart? rootMark name = none := by
  cases hafter : afterStart? rootMark name with
  | none => rfl
  | some rest => exact absurd ⟨rest, afterStart?_eq_some.mp hafter⟩ h

/-- The mark in front of a name is taken off. -/
theorem withoutRootMark_rootMark_append (name : String) :
    withoutRootMark (rootMark ++ name) = name := by
  rw [withoutRootMark, afterStart?_eq_some.mpr rfl, Option.getD_some]

/-- Taking the mark off changes exactly the rooted names. -/
theorem withoutRootMark_eq_self_iff {name : String} :
    withoutRootMark name = name ↔ ¬ IsRooted name := by
  constructor
  · intro h hrooted
    obtain ⟨rest, rfl⟩ := hrooted
    rw [withoutRootMark_rootMark_append] at h
    have hlength := congrArg String.length h
    have hmark : rootMark.length = 8 := rfl
    rw [String.length_append] at hlength
    omega
  · intro h
    rw [withoutRootMark, afterStart?_eq_none_of_not_isRooted h, Option.getD_none]

/-- Of segments with dots between them the first one decides whether the whole is rooted. The
mark holds no dot, so it cannot reach beyond that segment. -/
theorem isRooted_joined_iff (segments : List String) :
    IsRooted (joined "." segments) ↔ ∃ first ∈ segments.head?, IsRooted first := by
  cases segments with
  | nil => simpa [joined] using (by decide : ¬ IsRooted "")
  | cons first rest =>
    simp only [List.head?_cons, Option.mem_def, Option.some.injEq, exists_eq_left']
    cases rest with
    | nil => rfl
    | cons next rest =>
      have hchars : (joined "." (first :: next :: rest)).toList =
          first.toList ++ '.' :: (joined "." (next :: rest)).toList := by
        rw [joined_cons (List.cons_ne_nil next rest)]
        simp
      rw [isRooted_iff_toList, isRooted_iff_toList, hchars, prefix_append_cons_iff (by decide)]

/-- The mark ends in two colons. -/
theorem not_isRooted_of_not_infix {name : String} (h : ¬ [':', ':'] <:+: name.toList) :
    ¬ IsRooted name := by
  intro hrooted
  have hcolons : [':', ':'] <:+: rootMark.toList := ⟨"global".toList, [], by decide⟩
  exact h (hcolons.trans (isRooted_iff_toList.mp hrooted).isInfix)

end StubGen

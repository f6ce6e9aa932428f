import Mathlib.Data.List.Nodup
import StubGen.Generator

/-!
# Passes

During a pass the host takes in fragments under new names and refuses the others. A
program that hands over fragments whose names are new and different ends in success, and
the host has taken in exactly these fragments, in order.
-/

namespace StubGen.Pass

/-- A fragment under a new name is taken in. -/
theorem add_of_not_holds {p : Pass} {f : Fragment} (h : p.holds f.hintName = false) :
    p.add f = ({ p with sources := p.sources ++ [f] }, .ok ()) := by
  simp [add, h]

/-- After a fragment was taken in, the host holds its name and the names from before. -/
theorem holds_append (p : Pass) (f : Fragment) (hintName : String) :
    Pass.holds { p with sources := p.sources ++ [f] } hintName =
      (p.holds hintName || f.hintName == hintName) := by
  simp [holds, Bool.or_assoc]

/-- Fragments under new and different names are all taken in, in order. -/
theorem run_addAll {p : Pass} {fragments : List Fragment}
    (hnew : ∀ f ∈ fragments, p.holds f.hintName = false)
    (hnodup : (fragments.map (·.hintName)).Nodup) :
    p.run (.addAll fragments) = ({ p with sources := p.sources ++ fragments }, .ok ()) := by
  induction fragments generalizing p with
  | nil => simp [Program.addAll, run]
  | cons f rest ih =>
    obtain ⟨hf, hrest⟩ := List.forall_mem_cons.mp hnew
    obtain ⟨hother, hnodup⟩ := List.nodup_cons.mp hnodup
    have hnew' : ∀ g ∈ rest,
        Pass.holds { p with sources := p.sources ++ [f] } g.hintName = false := by
      intro g hg
      have hne : f.hintName ≠ g.hintName := fun heq =>
        hother (List.mem_map.mpr ⟨g, hg, heq.symm⟩)
      simp [holds_append, hrest g hg, hne]
    rw [Program.addAll, run, add_of_not_holds hf]
    simp only
    rw [ih hnew' hnodup, List.append_assoc, List.singleton_append]

/-- Completing the first greeting stub never fails: the pass takes in the fragment of the
target's type, if there is a target. -/
theorem run_stub (c : Compilation) :
    Pass.run { generator := Generator.stub.name } (Generator.stub.program c) =
      ({ generator := Generator.stub.name
         sources := (c.targetType?.map fun typeName =>
          Fragment.ofTargetType typeName Generator.stubSuffix).toList }, .ok ()) := by
  cases htarget : c.targetType? <;> simp only [Generator.stub, htarget] <;> rfl

end StubGen.Pass

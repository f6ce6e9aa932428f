import StubGen.Proofs.Generator.Pass
import StubGen.Proofs.Receiver.Slot

/-!
# The first greeting stub

A receiver that walks over a compilation keeps the stub of the first partial type that has one,
in file order and in pre-order within a file. The type around the stub is the one that was found,
so the fragment of the pass is that of the first such type.
-/

namespace StubGen

namespace Receiver

/-- A compilation's target is the stub of the first partial type that has one. -/
theorem target_ofCompilation (c : Compilation) :
    (ofCompilation c).target =
      (c.preorder.find? fun n => n.OpensGreeting).bind (·.targetStub?) := by
  have hopens : (fun n : NodeRef => decide n.OpensGreeting) = (·.hasTargetStub) := by
    funext n
    rw [Bool.eq_iff_iff, decide_eq_true_eq, NodeRef.hasTargetStub_iff]
  rw [ofCompilation, Compilation.walk_eq_visitAll, target_visitAll, target_shown, Option.none_or,
    firstStub?, hopens]

end Receiver

namespace Compilation

/-- The first partial type with a stub is one, and belongs to the compilation. -/
theorem opensGreeting_of_find? {c : Compilation} {n : NodeRef}
    (h : (c.preorder.find? fun n => n.OpensGreeting) = some n) :
    n ∈ c.preorder ∧ n.OpensGreeting :=
  ⟨List.mem_of_find?_eq_some h, by simpa using List.find?_some h⟩

/-- The type whose stub is completed is the first partial type that has one. -/
theorem targetType?_eq (c : Compilation) :
    c.targetType? =
      (c.preorder.find? fun n => n.OpensGreeting).map (·.declaration.name) := by
  unfold targetType?
  rw [Receiver.target_ofCompilation]
  cases hfirst : c.preorder.find? fun n => n.OpensGreeting with
  | none => rfl
  | some n =>
    obtain ⟨-, hopens⟩ := opensGreeting_of_find? hfirst
    obtain ⟨stub, hstub⟩ :=
      Option.isSome_iff_exists.mp (NodeRef.targetStub?_isSome_iff.mpr hopens.hasStub)
    have htype := NodeRef.enclosingType?_of_parent (NodeRef.parent_of_targetStub? hstub).1
      hopens.isType_eq_true
    simp [hstub, htype]

/-- The greeting is completed for the first partial type with a greeting stub, in file order
and in pre-order within a file, and for no other: a pass on its own ends in success with the
fragment of that type, or with none if there is no such type. The pre-order of a file holds
each of its nodes once. -/
theorem run_stub_eq_first (c : Compilation) :
    Pass.run { generator := Generator.stub.name } (Generator.stub.program c) =
        ({ generator := Generator.stub.name
           sources := ((c.preorder.find? fun n => n.OpensGreeting).map fun n =>
            Fragment.ofTargetType n.declaration.name Generator.stubSuffix).toList }, .ok ()) ∧
      ∀ t ∈ c.trees, (t.preorder t.root).Nodup ∧ ∀ i, i ∈ t.preorder t.root := by
  refine ⟨?_, fun t _ => ⟨Tree.preorder_nodup t.root, Tree.mem_preorder_root⟩⟩
  rw [Pass.run_stub, targetType?_eq, Option.map_map]
  rfl

end Compilation

end StubGen

import StubGen.Proofs.Candidate.Structure
import StubGen.Receiver

/-!
# The slot of a receiver

A receiver may be shown any nodes, of any trees and in any order, some of them again and some of
them after it asked to stop. It fills its slot at the first node that matches and never again, so
what it keeps is a function of the nodes it was shown, and of nothing else.

Two mechanisms keep the first match: the slot is filled only while it is empty, and a walk stops
where the slot is filled. They agree, so a walk that stops keeps what it would keep if it went on.
-/

namespace StubGen

namespace Receiver

/-- The receiver after it was shown nodes one after the other, whether it asked to stop or not. -/
def shown (r : Receiver) (nodes : List NodeRef) : Receiver :=
  nodes.foldl (fun r n => (r.visit n).1) r

/-- The stub of the first node that matches. -/
def firstStub? (nodes : List NodeRef) : Option NodeRef :=
  (nodes.find? (·.hasTargetStub)).bind (·.targetStub?)

variable {r : Receiver} {n : NodeRef}

/-- A node that matches has a stub. -/
theorem exists_targetStub?_eq (h : n.hasTargetStub = true) : ∃ stub, n.targetStub? = some stub := by
  rw [NodeRef.hasTargetStub, Bool.and_eq_true] at h
  exact Option.isSome_iff_exists.mp h.2

/-- At a node that matches the receiver fills an empty slot and asks to stop. -/
theorem visit_of_hasTargetStub (h : n.hasTargetStub = true) :
    r.visit n = ({ target := r.target.or n.targetStub? }, .halt) := by
  obtain ⟨stub, hstub⟩ := exists_targetStub?_eq h
  rw [NodeRef.hasTargetStub, Bool.and_eq_true] at h
  rw [visit, if_pos h.1, hstub]

/-- At any other node nothing happens. -/
theorem visit_of_not_hasTargetStub (h : ¬ n.hasTargetStub = true) :
    r.visit n = (r, .proceed) := by
  by_cases hpartial : n.declaration.isPartialType = true
  · have hnone : n.targetStub? = none := by
      rw [NodeRef.hasTargetStub, hpartial, Bool.true_and] at h
      exact Option.not_isSome_iff_eq_none.mp h
    rw [visit, if_pos hpartial, hnone]
  · rw [visit, if_neg hpartial]

/-- The receiver asks to stop exactly at the nodes that match, whatever it was shown before. -/
theorem visit_halts_iff : (r.visit n).2 = .halt ↔ n.hasTargetStub = true := by
  by_cases h : n.hasTargetStub = true
  · rw [visit_of_hasTargetStub h]
    exact iff_of_true rfl h
  · rw [visit_of_not_hasTargetStub h]
    exact iff_of_false (by simp) h

/-- A first node that matches decides about the first stub. -/
theorem firstStub?_cons_of_hasTargetStub (h : n.hasTargetStub = true) (rest : List NodeRef) :
    firstStub? (n :: rest) = n.targetStub? := by
  rw [firstStub?, List.find?_cons_of_pos h, Option.bind_some]

/-- A first node that does not match has no part in it. -/
theorem firstStub?_cons_of_not_hasTargetStub (h : ¬ n.hasTargetStub = true)
    (rest : List NodeRef) : firstStub? (n :: rest) = firstStub? rest := by
  rw [firstStub?, List.find?_cons_of_neg h, firstStub?]

/-- There is no first stub exactly if no node matches. -/
theorem firstStub?_eq_none_iff {nodes : List NodeRef} :
    firstStub? nodes = none ↔ ∀ n ∈ nodes, n.hasTargetStub = false := by
  induction nodes with
  | nil => exact iff_of_true rfl (fun n hn => absurd hn List.not_mem_nil)
  | cons n rest ih =>
    by_cases h : n.hasTargetStub = true
    · obtain ⟨stub, hstub⟩ := exists_targetStub?_eq h
      rw [firstStub?_cons_of_hasTargetStub h, hstub]
      exact iff_of_false (Option.some_ne_none stub) fun hall =>
        absurd (hall n List.mem_cons_self) (by simp [h])
    · rw [firstStub?_cons_of_not_hasTargetStub h, ih, List.forall_mem_cons]
      exact (and_iff_right (Bool.eq_false_iff.mpr h)).symm

/-- What a receiver keeps: what it had, and otherwise the first stub of the nodes it is shown. -/
theorem target_shown (r : Receiver) (nodes : List NodeRef) :
    (r.shown nodes).target = r.target.or (firstStub? nodes) := by
  induction nodes generalizing r with
  | nil => exact Option.or_none.symm
  | cons n rest ih =>
    have hstep : r.shown (n :: rest) = (r.visit n).1.shown rest := rfl
    rw [hstep, ih]
    by_cases h : n.hasTargetStub = true
    · -- From here on the slot is full, and what comes later does not matter.
      obtain ⟨stub, hstub⟩ := exists_targetStub?_eq h
      rw [visit_of_hasTargetStub h, firstStub?_cons_of_hasTargetStub h, hstub, Option.or_assoc,
        Option.some_or]
    · rw [visit_of_not_hasTargetStub h, firstStub?_cons_of_not_hasTargetStub h]

/-- What is shown later only matters to a receiver whose slot is empty. -/
theorem target_shown_append (r : Receiver) (earlier later : List NodeRef) :
    (r.shown (earlier ++ later)).target =
      (r.shown earlier).target.or (shown {} later).target := by
  have hshown : r.shown (earlier ++ later) = (r.shown earlier).shown later := List.foldl_append
  rw [hshown, target_shown, target_shown {} later, Option.none_or]

/-- Being shown nodes until it asks to stop leaves a receiver with what it keeps of all of them. -/
theorem target_visitAll (r : Receiver) (nodes : List NodeRef) :
    (visitAll visit nodes r).1.target = (r.shown nodes).target := by
  rw [target_shown]
  induction nodes generalizing r with
  | nil => exact Option.or_none.symm
  | cons n rest ih =>
    by_cases h : n.hasTargetStub = true
    · rw [visitAll, visit_of_hasTargetStub h, firstStub?_cons_of_hasTargetStub h]
    · rw [visitAll, visit_of_not_hasTargetStub h, firstStub?_cons_of_not_hasTargetStub h]
      exact ih r

/-- The slot holds the first match. A receiver that was shown any nodes keeps the stub of the
first of them that matches, and nothing if none does. What it is shown afterwards changes the slot
only if it is empty. It asks to stop exactly at the nodes that match. A walk over a compilation,
which ends where the receiver asks to stop, leaves the target that showing it every node of every
tree would leave, in the order of the files and in pre-order within a file; for a receiver that
was shown nothing before, this is what it keeps of the compilation. -/
theorem slot_holds_first_stub (visited : List NodeRef) :
    (shown {} visited).target = (visited.find? (·.hasTargetStub)).bind (·.targetStub?) ∧
      ((shown {} visited).target = none ↔ ∀ n ∈ visited, n.hasTargetStub = false) ∧
      (∀ later, (shown {} (visited ++ later)).target =
        (shown {} visited).target.or (shown {} later).target) ∧
      (∀ n, ((shown {} visited).visit n).2 = .halt ↔ n.hasTargetStub = true) ∧
      ∀ c : Compilation,
        (c.walk visit (shown {} visited)).1.target =
            ((shown {} visited).shown c.preorder).target ∧
          (ofCompilation c).target = (shown {} c.preorder).target ∧
          (∀ n, n ∈ c.preorder ↔ n.tree ∈ c.trees) ∧
          ∀ t ∈ c.trees, (t.preorder t.root).Nodup := by
  have hshown : (shown {} visited).target = firstStub? visited := by
    rw [target_shown, Option.none_or]
  have hwalk (c : Compilation) (r : Receiver) :
      (c.walk visit r).1.target = (r.shown c.preorder).target := by
    rw [Compilation.walk_eq_visitAll, target_visitAll]
  refine ⟨hshown, ?_, target_shown_append {} visited, fun n => visit_halts_iff, fun c => ?_⟩
  · rw [hshown, firstStub?_eq_none_iff]
  · exact ⟨hwalk c _, hwalk c {}, fun n => Compilation.mem_preorder,
      fun t _ => Tree.preorder_nodup t.root⟩

end Receiver

end StubGen

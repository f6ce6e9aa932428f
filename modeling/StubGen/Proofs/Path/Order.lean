import Mathlib.Data.List.Sort
import StubGen.Path

/-!
# The order of paths

Paths are sorted by their steps, and steps by their kind and name. Two paths are only equally
far in this order if they have the same steps, so sorting paths whose steps differ has one
result, whatever order they are given in.
-/

namespace StubGen

namespace PathComponent

/-- A name comes before another if its characters do. -/
theorem before_name {s t : String} : (name s).before (name t) = true ↔ s < t := decide_eq_true_iff

/-- No step comes before itself. -/
theorem before_self (a : PathComponent) : a.before a = false := by
  cases a with
  | name s => exact decide_eq_false (String.lt_irrefl s)
  | _ => rfl

/-- One of two different steps comes before the other. -/
theorem before_or_before {a b : PathComponent} (h : a ≠ b) :
    a.before b = true ∨ b.before a = true := by
  cases a with
  | name s =>
    cases b with
    | name t =>
      rw [before_name, before_name]
      rcases String.le_total s t with hle | hle
      · refine .inl (String.not_le.mp fun hge => h ?_)
        rw [String.le_antisymm hle hge]
      · refine .inr (String.not_le.mp fun hge => h ?_)
        rw [String.le_antisymm hge hle]
    | _ => exact .inr rfl
  | _ =>
    cases b with
    | name t => exact .inl rfl
    | _ => first | exact .inl rfl | exact .inr rfl | exact absurd rfl h

/-- A step that comes before another comes before what comes after that. -/
theorem before_trans {a b c : PathComponent} (hab : a.before b = true) (hbc : b.before c = true) :
    a.before c = true := by
  cases b with
  | name t =>
    cases c with
    | name u =>
      cases a with
      | name s => exact before_name.mpr (String.lt_trans (before_name.mp hab) (before_name.mp hbc))
      | _ => rfl
    | _ => contradiction
  | _ => cases a <;> cases c <;> first | rfl | contradiction

end PathComponent

namespace Path

/-- Of two lists of steps, one comes no later than the other. -/
theorem componentsLe_total (as bs : List PathComponent) :
    componentsLe as bs = true ∨ componentsLe bs as = true := by
  induction as generalizing bs with
  | nil => exact .inl rfl
  | cons a as ih =>
    cases bs with
    | nil => exact .inr rfl
    | cons b bs =>
      rw [componentsLe, componentsLe]
      by_cases hab : a = b
      · simpa [hab] using ih bs
      · simpa [hab, Ne.symm hab] using PathComponent.before_or_before hab

/-- A list of steps that comes no later than another comes no later than what comes no earlier
than that. -/
theorem componentsLe_trans {as bs cs : List PathComponent} (hab : componentsLe as bs = true)
    (hbc : componentsLe bs cs = true) : componentsLe as cs = true := by
  induction as generalizing bs cs with
  | nil => rfl
  | cons a as ih =>
    cases bs with
    | nil => contradiction
    | cons b bs =>
      cases cs with
      | nil => contradiction
      | cons c cs =>
        rw [componentsLe] at hab hbc ⊢
        by_cases heq : a = b
        · rw [if_pos heq] at hab
          by_cases hnext : b = c
          · rw [if_pos hnext] at hbc
            rw [if_pos (heq.trans hnext)]
            exact ih hab hbc
          · rw [if_neg hnext] at hbc
            rw [if_neg (heq ▸ hnext), heq]
            exact hbc
        · rw [if_neg heq] at hab
          by_cases hnext : b = c
          · rw [if_neg (hnext ▸ heq), ← hnext]
            exact hab
          · rw [if_neg hnext] at hbc
            have hbefore := PathComponent.before_trans hab hbc
            rw [if_neg fun hac => by simp [hac, PathComponent.before_self] at hbefore]
            exact hbefore

/-- Two lists of steps that come no later than each other are the same. -/
theorem componentsLe_antisymm {as bs : List PathComponent} (hab : componentsLe as bs = true)
    (hba : componentsLe bs as = true) : as = bs := by
  induction as generalizing bs with
  | nil =>
    cases bs with
    | nil => rfl
    | cons b bs => contradiction
  | cons a as ih =>
    cases bs with
    | nil => contradiction
    | cons b bs =>
      rw [componentsLe] at hab hba
      by_cases heq : a = b
      · rw [if_pos heq] at hab
        rw [if_pos heq.symm] at hba
        rw [heq, ih hab hba]
      · rw [if_neg heq] at hab
        rw [if_neg (Ne.symm heq)] at hba
        have hbefore := PathComponent.before_trans hab hba
        simp [PathComponent.before_self] at hbefore

/-- Sorting paths puts each no later than those after it. -/
theorem pairwise_mergeSort_le (found : List Path) :
    (found.mergeSort le).Pairwise fun p q => p.le q = true := by
  have htrans (p q r : Path) (hpq : p.le q = true) (hqr : q.le r = true) : p.le r = true :=
    componentsLe_trans hpq hqr
  have htotal (p q : Path) : (p.le q || q.le p) = true := by
    simpa [le] using componentsLe_total p.components q.components
  exact List.pairwise_mergeSort htrans htotal found

/-- Sorting different paths, no two of which have the same steps, puts each strictly before those
after it. -/
theorem pairwise_mergeSort_strict {found : List Path} (hnodup : found.Nodup)
    (hsteps : ∀ p ∈ found, ∀ q ∈ found, p.components = q.components → p = q) :
    (found.mergeSort le).Pairwise fun p q => p.le q = true ∧ q.le p = false := by
  have hdifferent := ((List.mergeSort_perm found le).nodup_iff.mpr hnodup).and
    (pairwise_mergeSort_le found)
  refine hdifferent.imp_of_mem fun hp hq ⟨hne, hpq⟩ =>
    ⟨hpq, Bool.eq_false_iff.mpr fun hqp => hne ?_⟩
  exact hsteps _ (List.mem_mergeSort.mp hp) _ (List.mem_mergeSort.mp hq)
    (componentsLe_antisymm hpq hqp)

/-- Sorted lists of the same paths are the same if no two of the paths have the same steps. -/
theorem mergeSort_eq_of_perm {found again : List Path} (hperm : found.Perm again)
    (hsteps : ∀ p ∈ found, ∀ q ∈ found, p.components = q.components → p = q) :
    found.mergeSort le = again.mergeSort le := by
  refine List.Perm.eq_of_pairwise (fun p q hp hq hpq hqp => ?_) (pairwise_mergeSort_le found)
    (pairwise_mergeSort_le again)
    (((List.mergeSort_perm found le).trans hperm).trans (List.mergeSort_perm again le).symm)
  refine hsteps p (List.mem_mergeSort.mp hp) q (hperm.mem_iff.mpr (List.mem_mergeSort.mp hq)) ?_
  exact componentsLe_antisymm hpq hqp

end Path

end StubGen

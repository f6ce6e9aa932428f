import Mathlib.Data.List.Sort
import StubGen.Proofs.Host.Session

/-!
# The order of the files with syntax errors

A run reports the files with syntax errors in the order of its registry, which is the order of
their numbers. So a table that hands out its files in any order serves as well: what it reports
of them, sorted by file, is the same report.

All this rests on the numbers of a registry, which increase along its files whatever was done to
it.
-/

namespace StubGen

/-- Sorting by numbers that increase along a list gives the list back, whatever order its elements
were in. -/
theorem mergeSort_eq_of_increasing {α : Type} {number : α → Nat} {list table : List α}
    (hlist : list.Pairwise fun a b => number a < number b) (htable : table.Perm list) :
    table.mergeSort (fun a b => decide (number a ≤ number b)) = list := by
  have hsorted : (table.mergeSort fun a b => decide (number a ≤ number b)).Pairwise
      fun a b => number a ≤ number b := by
    have htrans (a b c : α) (hab : decide (number a ≤ number b) = true)
        (hbc : decide (number b ≤ number c) = true) : decide (number a ≤ number c) = true :=
      decide_eq_true (Nat.le_trans (of_decide_eq_true hab) (of_decide_eq_true hbc))
    have htotal (a b : α) :
        (decide (number a ≤ number b) || decide (number b ≤ number a)) = true := by
      simpa using Nat.le_total (number a) (number b)
    exact (List.pairwise_mergeSort htrans htotal table).imp of_decide_eq_true
  have hperm := (List.mergeSort_perm table fun a b => decide (number a ≤ number b)).trans htable
  have hnodup : (list.map number).Nodup := List.pairwise_map.mpr (hlist.imp Nat.ne_of_lt)
  refine hperm.eq_of_pairwise (fun a b ha hb hab hba => ?_) hsorted (hlist.imp Nat.le_of_lt)
  exact List.inj_on_of_nodup_map hnodup (hperm.mem_iff.mp ha) hb (Nat.le_antisymm hab hba)

namespace ParsedFile

/-- Parsed files by increasing numbers. -/
def Increasing (files : List ParsedFile) : Prop :=
  files.Pairwise fun f g => f.file.index < g.file.index

/-- The syntax errors of a table of parsed files, sorted by file. -/
def sortedErrors (table : List ParsedFile) : List FileErrors :=
  (syntaxErrors table).mergeSort fun a b => decide (a.file.index ≤ b.file.index)

variable {files table : List ParsedFile}

/-- The reports are as far in order as the files. -/
theorem Increasing.syntaxErrors (h : Increasing files) :
    (syntaxErrors files).Pairwise fun a b => a.file.index < b.file.index := by
  refine h.filterMap _ fun f g hlt a ha b hb => ?_
  simp only [Option.ite_none_left_eq_some, Option.some.injEq] at ha hb
  obtain ⟨-, rfl⟩ := ha
  obtain ⟨-, rfl⟩ := hb
  exact hlt

/-- Sorting what a table reports gives what is reported of the files in order. -/
theorem Increasing.sortedErrors_eq (h : Increasing files) (htable : table.Perm files) :
    sortedErrors table = ParsedFile.syntaxErrors files :=
  mergeSort_eq_of_increasing h.syntaxErrors (htable.filterMap _)

end ParsedFile

namespace Host

variable {parser : Parser} {digest : Digest} {h : Host} {r : Registry}

/-- What is known of a file is kept under its number. -/
theorem file_knownFile (parser : Parser) (digest : Digest) (known : List KnownFile)
    (f : SourceFile) : (knownFile parser digest known f).file = f.id := by
  unfold knownFile
  split
  · rename_i k hfound
    have hkept := List.find?_some hfound
    simp only [Bool.and_eq_true, beq_iff_eq] at hkept
    exact hkept.1
  · rfl

/-- The files that a run keeps have increasing numbers. -/
theorem increasing_known (parser : Parser) (digest : Digest) (known : List KnownFile)
    (hr : r.Numbered) :
    ParsedFile.Increasing ((r.files.map (knownFile parser digest known)).map (·.toParsedFile)) := by
  refine List.pairwise_map.mpr (List.pairwise_map.mpr (hr.increasing.imp fun hlt => ?_))
  rwa [file_knownFile, file_knownFile]

/-- A run reports the syntax errors of the files that it keeps, sorted by file. In which order the
files are collected makes no difference. -/
theorem runM_eq_sorted {m : Type → Type} [Monad m] [LawfulMonad m]
    (execute : Generator → Compilation → m GeneratorResult) (hr : r.Numbered)
    {collect : List KnownFile → List KnownFile} (hcollect : ∀ known, (collect known).Perm known) :
    h.runM execute parser digest r =
      (fun outcome : Host × RunResult => (outcome.1, { outcome.2 with
        syntaxErrors :=
          ParsedFile.sortedErrors ((collect outcome.1.known).map (·.toParsedFile)) })) <$>
        h.runM execute parser digest r := by
  have hsorted := (increasing_known parser digest h.known hr).sortedErrors_eq
    ((hcollect _).map (·.toParsedFile))
  unfold runM
  dsimp only
  split
  · rw [map_pure, hsorted]
  · simp only [map_bind, map_pure, hsorted]

/-- What a run reports is what its files report. -/
theorem syntaxErrors_run (h : Host) (parser : Parser) (digest : Digest) (r : Registry) :
    (h.run parser digest r).2.syntaxErrors =
      ParsedFile.syntaxErrors
        ((r.files.map (knownFile parser digest h.known)).map (·.toParsedFile)) := by
  simp only [run, runM, List.mapM_pure, pure_bind]
  split <;> rfl

/-- Every run of a session reports files by increasing numbers, each once. -/
theorem session_syntaxErrors_increasing (hr : r.Numbered) (steps : List SessionStep) :
    ∀ run ∈ h.session parser digest r steps,
      run.syntaxErrors.Pairwise fun a b => a.file.index < b.file.index := by
  induction steps generalizing h r with
  | nil => exact fun run hrun => absurd hrun List.not_mem_nil
  | cons step rest ih =>
    cases step with
    | edit operation => exact ih (hr.changes (Registry.changes_apply r operation))
    | run =>
      refine List.forall_mem_cons.mpr ⟨?_, ih hr⟩
      rw [syntaxErrors_run]
      exact (increasing_known parser digest h.known hr).syntaxErrors

end Host

end StubGen

import StubGen.Command.Output
import StubGen.Proofs.Command.Effect
import StubGen.Proofs.Disk.Operations

/-!
# Writing as a function of the disk

What the generators yield is written by operations on the disk that may fail. Put together in
the order of the command, they give one function for each of its parts, which has no result if
any of the operations fails.
-/

namespace StubGen

namespace GeneratorResult

/-- What the manifest lists of the fragments of one generator. -/
def entries (r : GeneratorResult) : List ManifestEntry :=
  r.sources.map (Command.entryOf r.generator)

end GeneratorResult

/-- The manifest of the fragments of all generators. -/
def Manifest.ofResults (results : List GeneratorResult) : Manifest where
  files := results.flatMap (·.entries)

namespace Disk

/-- The disk with fragments written into a directory, in order. -/
def writeFragments? (directory : Path) : List Fragment → Disk → Option Disk
  | [], d => some d
  | f :: rest, d =>
    (d.writeText? (directory.join ⟨f.hintName⟩) f.sourceText).bind (writeFragments? directory rest)

/-- The disk with the fragments of one generator in the place of what its directory held. -/
def writeResult? (out : Path) (r : GeneratorResult) (d : Disk) : Option Disk :=
  (d.clear? (out.join ⟨r.generator⟩)).bind fun d =>
    if r.sources.isEmpty then some d
    else (d.make? (out.join ⟨r.generator⟩)).bind
      (writeFragments? (out.join ⟨r.generator⟩) r.sources)

/-- The disk with the fragments of all generators. -/
def writeResults? (out : Path) : List GeneratorResult → Disk → Option Disk
  | [], d => some d
  | r :: rest, d => (writeResult? out r d).bind (writeResults? out rest)

/-- The disk with the fragments of all generators and their manifest. -/
def writeOutputs? (out : Path) (results : List GeneratorResult) (d : Disk) : Option Disk :=
  (d.make? out).bind fun d => (writeResults? out results d).bind fun d =>
    d.writeText? (out.join Manifest.fileName) (Manifest.ofResults results).render

end Disk

namespace Command

/-- Making directories. What is made before a failure does not count. -/
theorem acts_makeDirectories (failure : CommandError) (p : Path) :
    Acts (makeDirectories failure p) fun d => (d.make? p).map ((), ·) := by
  intro w a d
  have hrun : (makeDirectories failure p).run w =
      if (w.disk.makeDirectories p).2 then .ok () { w with disk := (w.disk.makeDirectories p).1 }
      else .error failure { w with disk := (w.disk.makeDirectories p).1 } := by
    simp only [makeDirectories, EStateM.run_bind, EStateM.run_get, EStateM.run_modify]
    cases (w.disk.makeDirectories p).2 <;> rfl
  rw [hrun]
  cases hmade : (w.disk.makeDirectories p).2 <;> simp [Disk.make?, hmade, eq_comm]

/-- Clearing away what a path leads to. -/
theorem acts_clearDirectory (p : Path) :
    Acts (clearDirectory p) fun d => (d.clear? p).map ((), ·) := by
  refine (acts_get_bind (g := fun seen d => if seen.holds p then
    (d.removeDirectory? p).map ((), ·) else some ((), d)) fun w => ?_).congr fun d => ?_
  · exact acts_ite (fun _ => acts_changeDisk _ _) fun _ => acts_pure ()
  · rw [Disk.clear?]
    split <;> rfl

/-- Writing a text. -/
theorem acts_writeText (p : Path) (text : String) :
    Acts (writeText p text) fun d => (d.writeText? p text).map ((), ·) :=
  acts_changeDisk _ _

/-- Writing fragments. -/
theorem acts_writeFragments (directory : Path) (fragments : List Fragment) :
    Acts (fragments.forM fun f => writeText (directory.join ⟨f.hintName⟩) f.sourceText)
      fun d => (Disk.writeFragments? directory fragments d).map ((), ·) := by
  induction fragments with
  | nil => exact acts_pure ()
  | cons f rest ih =>
    refine ((acts_writeText _ _).bind fun _ => ih).congr fun d => ?_
    simp only [Disk.writeFragments?, Option.map_eq_bind, Option.bind_assoc, Function.comp_def,
      Option.bind_some]

/-- Writing the fragments of one generator. -/
theorem acts_writeResult (out : Path) (r : GeneratorResult) :
    Acts (writeResult out r) fun d => (Disk.writeResult? out r d).map (r.entries, ·) := by
  refine ((acts_clearDirectory _).bind fun _ => acts_ite (fun _ => acts_pure []) fun _ =>
    (acts_makeDirectories _ _).bind fun _ => (acts_writeFragments _ _).bind fun _ =>
      acts_pure r.entries).congr fun d => ?_
  simp only [Disk.writeResult?, Option.map_eq_bind, Option.bind_assoc, Function.comp_def,
    Option.bind_some]
  refine Option.bind_congr fun d₁ _ => ?_
  split
  · rename_i hempty
    simp [GeneratorResult.entries, List.isEmpty_iff.mp hempty]
  · simp only [Option.bind_assoc]

/-- Writing the fragments of all generators. -/
theorem acts_writeResults (out : Path) (results : List GeneratorResult) :
    Acts (writeResults out results) fun d =>
      (Disk.writeResults? out results d).map ((Manifest.ofResults results).files, ·) := by
  induction results with
  | nil => exact acts_pure []
  | cons r rest ih =>
    refine ((acts_writeResult out r).bind fun entries => ih.bind fun others =>
      acts_pure (entries ++ others)).congr fun d => ?_
    simp only [Disk.writeResults?, Manifest.ofResults, List.flatMap_cons, Option.map_eq_bind,
      Option.bind_assoc, Function.comp_def, Option.bind_some]

/-- Writing what a run yielded, and the manifest. -/
theorem acts_writeOutputs (out : Path) (result : RunResult) :
    Acts (writeOutputs out result) fun d =>
      (Disk.writeOutputs? out result.results d).map (Manifest.ofResults result.results, ·) := by
  refine ((acts_makeDirectories _ _).bind fun _ => (acts_writeResults _ _).bind fun files =>
    (acts_writeText _ _).bind fun _ => acts_pure (Manifest.mk files)).congr fun d => ?_
  simp only [Disk.writeOutputs?, Option.map_eq_bind, Option.bind_assoc, Function.comp_def,
    Option.bind_some]

end Command

end StubGen

import StubGen.Command.Check
import StubGen.Proofs.Command.Outcome
import StubGen.Proofs.Generator.Result
import StubGen.Proofs.Host.Session

/-!
# What a check announces

A check looks for the greeting stub and the annotated methods on its own and runs no
generator. What it announces is what a host with both generators yields for the same registry:
the type of the only greeting that is completed, and type and method of every annotated method
in the order of the fragments. It fails over syntax errors exactly if the run reports some, and
counts as many.
-/

namespace StubGen

/-- Files with errors are listed with their errors, so the list is empty exactly if no error is
counted. -/
theorem ParsedFile.count_syntaxErrors_eq_zero {files : List ParsedFile} :
    FileErrors.count (syntaxErrors files) = 0 ↔ syntaxErrors files = [] := by
  constructor
  · intro hzero
    rw [FileErrors.count, List.length_eq_zero_iff, List.flatMap_eq_nil_iff] at hzero
    refine List.eq_nil_iff_forall_not_mem.mpr fun listed hlisted => ?_
    obtain ⟨f, -, hf⟩ := List.mem_filterMap.mp hlisted
    split at hf
    · contradiction
    · rename_i herrors
      obtain rfl := Option.some.inj hf
      exact herrors (List.isEmpty_iff.mpr (hzero _ hlisted))
  · intro hnone
    rw [hnone]
    rfl

namespace Command

/-- The first part of a check: loads the sources of a project. -/
def loadProject (p : Path) : Command Registry := do
  print ("Checking project at " ++ p.text)
  let directory := projectDirectory (← get).disk p
  let config ← loadConfig directory none
  loadSources p (some (directory.join config.outputDirectory))

/-- The other part of a check: reports on the files of a registry. -/
def reportOn (parser : Parser) (r : Registry) : Command CheckReport := do
  let parsed := r.parsed parser
  let report := CheckReport.ofParsed parsed
  report.lines.forM print
  let found := ParsedFile.syntaxErrors parsed
  showSyntaxErrors found
  if FileErrors.count found > 0 then do
    notify ("Failed: " ++ toString (FileErrors.count found) ++ " syntax errors found")
    throw (.checkFailed (FileErrors.count found))
  else do
    print "Success: No errors found"
    pure report

/-- A check loads the sources and reports on them. -/
theorem check_eq (parser : Parser) (p : Path) :
    check parser p = loadProject p >>= reportOn parser := by
  simp only [check, loadProject, bind_assoc]
  rfl

/-- Loading a project never fails over syntax errors. -/
theorem loadProject_ne_checkFailed {p : Path} {w w' : World} {e : CommandError}
    (h : (loadProject p).run w = .error e w') (count : Nat) : e ≠ .checkFailed count := by
  have honly : FailsOnly (∀ count, · ≠ .checkFailed count) (loadProject p) := by
    refine (prints_print _).failsOnly.bind fun _ => failsOnly_get.bind fun w => ?_
    refine (failsOnly_loadConfig ?_ _ _).bind fun config => failsOnly_loadSources ?_ ?_ ?_ _ _ <;>
      simp
  exact honly w e w' h count

/-- A report leaves the disk alone. It is handed over if there is no syntax error, and fails
with the number of errors otherwise. -/
theorem run_reportOn (parser : Parser) (r : Registry) (w : World) :
    ∃ w', w'.disk = w.disk ∧
      (reportOn parser r).run w =
        if ParsedFile.syntaxErrors (r.parsed parser) = [] then
          .ok (CheckReport.ofParsed (r.parsed parser)) w'
        else
          .error (.checkFailed (FileErrors.count (ParsedFile.syntaxErrors (r.parsed parser)))) w' := by
  unfold reportOn
  obtain ⟨w₁, hlines, hrun⟩ := (prints_forM prints_print
    (CheckReport.ofParsed (r.parsed parser)).lines).run_bind _ w
  rw [hrun]
  obtain ⟨w₂, herrors, hrun⟩ := (prints_showSyntaxErrors
    (ParsedFile.syntaxErrors (r.parsed parser))).run_bind _ w₁
  rw [hrun]
  by_cases hnone : ParsedFile.syntaxErrors (r.parsed parser) = []
  · have hzero := ParsedFile.count_syntaxErrors_eq_zero.mpr hnone
    obtain ⟨w₃, hsuccess, hrun⟩ := (prints_print "Success: No errors found").run_bind
      (fun _ => pure (CheckReport.ofParsed (r.parsed parser))) w₂
    refine ⟨w₃, hsuccess.trans (herrors.trans hlines), ?_⟩
    rw [if_neg (by omega), if_pos hnone, hrun]
    rfl
  · have hpos := Nat.pos_of_ne_zero (mt ParsedFile.count_syntaxErrors_eq_zero.mp hnone)
    obtain ⟨w₃, hnotice, hrun⟩ := (prints_notify _).run_bind (fun _ => throw _) w₂
    refine ⟨w₃, hnotice.trans (herrors.trans hlines), ?_⟩
    rw [if_pos hpos, if_neg hnone, hrun]
    rfl

/-- A check announces a stub exactly if the generator of stubs yields one fragment, and it is
named for the type. -/
theorem targetType?_eq_some_iff_sources (c : Compilation) (typeName : String) :
    c.targetType? = some typeName ↔
      ∃ f, (Generator.stub.result c).sources = [f] ∧
        f.hintName = typeName ++ Generator.stubSuffix := by
  rw [Generator.result_stub]
  cases c.targetType? with
  | none => simp
  | some target =>
    constructor
    · intro hsame
      obtain rfl := Option.some.inj hsame
      exact ⟨_, rfl, rfl⟩
    · rintro ⟨f, hone, hname⟩
      obtain rfl := List.singleton_inj.mp hone
      exact congrArg some ((String.append_left_inj _).mp hname)

/-- What a check says of the records is what the fragments complete, one for one. -/
theorem forall₂_annotated_sources (c : Compilation) :
    List.Forall₂
      (fun entry f => ∃ record ∈ c.records,
        entry = record.typeName ++ "." ++ record.memberName ∧
          record.fragment f.hintName = .ok f)
      (c.records.map fun record => record.typeName ++ "." ++ record.memberName)
      (Generator.annotated.result c).sources := by
  obtain ⟨sources, hresult, -, hmatch⟩ := Generator.result_annotated c
  rw [hresult, List.forall₂_map_left_iff]
  refine ((List.forall₂_and_left _ _).mpr ⟨fun _ => id, hmatch⟩).imp ?_
  rintro record f ⟨hmem, hfragment⟩
  exact ⟨record, hmem, rfl, hfragment⟩

/-- A check and a first run of both generators agree on every registry. The check announces a
stub exactly if the generator of stubs yields one fragment, named for the announced type; its
other lines are type and method of the records behind the fragments of the other generator,
one for one; and it fails exactly if the run reports syntax errors, with their number. Before
the files are registered, no check fails over syntax errors. -/
theorem check_agrees_with_run (parser : Parser) (digest : Digest) (r : Registry) :
    let report := CheckReport.ofParsed (r.parsed parser)
    let result := ((Host.ofGenerators Generator.all).run parser digest r).2
    (∃ stubs annotated, result.results = [stubs, annotated] ∧
      stubs.generator = "partial-method" ∧ annotated.generator = "attribute" ∧
      (∀ typeName, report.stubType = some typeName ↔
        ∃ f, stubs.sources = [f] ∧ f.hintName = typeName ++ ".g.cs") ∧
      List.Forall₂
        (fun entry f => ∃ record ∈ (r.compilation parser).records,
          entry = record.typeName ++ "." ++ record.memberName ∧
            record.fragment f.hintName = .ok f)
        report.annotated annotated.sources) ∧
    (∀ w, ∃ w', w'.disk = w.disk ∧
      (reportOn parser r).run w =
        if result.syntaxErrors = [] then .ok report w'
        else .error (.checkFailed result.errorCount) w') ∧
    (∀ p, check parser p = loadProject p >>= reportOn parser) ∧
    ∀ p w w' e count, (loadProject p).run w = .error e w' → e ≠ .checkFailed count := by
  intro report result
  have hresult : result =
      { results := [Generator.stub.result (r.compilation parser),
          Generator.annotated.result (r.compilation parser)]
        syntaxErrors := ParsedFile.syntaxErrors (r.parsed parser) } :=
    Host.run_ofGenerators Generator.all r
  refine ⟨⟨_, _, congrArg RunResult.results hresult, ?_, ?_,
    targetType?_eq_some_iff_sources _, forall₂_annotated_sources _⟩, fun w => ?_,
    check_eq parser, fun _ _ _ _ count h => loadProject_ne_checkFailed h count⟩
  · rw [Generator.result_stub]
    rfl
  · obtain ⟨sources, hannotated, -⟩ := Generator.result_annotated (r.compilation parser)
    rw [hannotated]
    rfl
  · rw [hresult]
    exact run_reportOn parser r w

end Command

end StubGen

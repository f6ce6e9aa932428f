import StubGen.Command

/-!
# The command that checks

Lists what would be generated for a project and fails if a file has syntax errors. Nothing
is written.
-/

namespace StubGen

/-- What would be generated for a project. -/
structure CheckReport where
  /-- The number of files. -/
  files : Nat
  /-- The type whose greeting stub is completed. -/
  stubType : Option String
  /-- Type and name of every annotated method that is completed. -/
  annotated : List String
deriving DecidableEq, Repr, Inhabited

namespace CheckReport

/-- The report on parsed files. -/
def ofParsed (files : List ParsedFile) : CheckReport :=
  let c := ParsedFile.compilation files
  { files := files.length
    stubType := c.targetType?
    annotated := c.records.map fun r => r.typeName ++ "." ++ r.memberName }

/-- The lines of the report. -/
def lines (r : CheckReport) : List String :=
  ["  Found: " ++ toString r.files ++ " source files",
    match r.stubType with
    | some typeName => "  partial-method: " ++ typeName ++ "." ++ targetMethod
    | none => "  partial-method: no candidate"] ++
    if r.annotated.isEmpty then ["  attribute: no candidate"]
    else r.annotated.map ("  attribute: " ++ ·)

end CheckReport

namespace Command

/-- Reports on a project. -/
def check (parser : Parser) (p : Path) : Command CheckReport := do
  print ("Checking project at " ++ p.text)
  let directory := projectDirectory (← get).disk p
  let config ← loadConfig directory none
  let registry ← loadSources p (some (directory.join config.outputDirectory))
  let parsed := registry.files.map (ParsedFile.ofSource parser)
  let report := CheckReport.ofParsed parsed
  report.lines.forM print
  let found := ParsedFile.syntaxErrors parsed
  showSyntaxErrors found
  if FileErrors.count found > 0 then do
    notify ("Failed: " ++ toString (FileErrors.count found) ++ " syntax errors found")
    throw (.checkFailed (FileErrors.count found))
  else do
    print "Success: No errors found"
    pure report

end Command

end StubGen

import StubGen.Proofs.Command.Regenerating

/-!
# How generating fails

Generating first reads and then writes. What it reads is a function of the disk, and so are the
failures over it; all of them leave the disk alone. Past that point a failure is one of writing,
because the generators that run do not fail on any compilation.
-/

namespace StubGen

namespace CommandError

/-- The failures over what is to be read. -/
inductive IsOfReading : CommandError → Prop
  | config (error : ConfigError) : IsOfReading (.config error)
  | source (error : RegistryError) : IsOfReading (.source error)
  | noSuchPath (path : Path) : IsOfReading (.noSuchPath path)
  | noSources (path : Path) : IsOfReading (.noSources path)

/-- The failures over what is to be written. -/
inductive IsOfWriting : CommandError → Prop
  | outputDirectory (path : Path) : IsOfWriting (.outputDirectory path)
  | clear (path : Path) : IsOfWriting (.clear path)
  | create (path : Path) : IsOfWriting (.create path)
  | write (path : Path) : IsOfWriting (.write path)

variable {e : CommandError}

/-- What cannot be written was not to be read. -/
theorem IsOfWriting.not_isOfReading (h : e.IsOfWriting) : ¬ e.IsOfReading := by
  intro hreading
  cases h <;> contradiction

/-- A failure to write is not the failure of a generator. -/
theorem IsOfWriting.ne_generatorsFailed (h : e.IsOfWriting) (count : Nat) :
    e ≠ .generatorsFailed count := by
  rintro rfl
  contradiction

/-- A failure to read is not the failure of a generator. -/
theorem IsOfReading.ne_generatorsFailed (h : e.IsOfReading) (count : Nat) :
    e ≠ .generatorsFailed count := by
  rintro rfl
  contradiction

end CommandError

/-- The registry of all sources of a project, or why there is none. -/
def Disk.registry (d : Disk) (p : Path) (exclude : Option Path) :
    Except CommandError Registry := do
  let paths ← (d.sources? p exclude).elim (throw (.noSuchPath p)) pure
  let r ← (Command.loadAll d .empty paths).mapError .source
  if r.isEmpty then throw (.noSources p) else pure r

namespace GenerateOptions

/-- What generating takes from a disk for a project in the given directory, or why it fails. -/
def readingIn (o : GenerateOptions) (directory : Path) (d : Disk) :
    Except CommandError Reading := do
  let config ← (d.config directory o.config).mapError .config
  let out := o.out.getD (directory.join config.outputDirectory)
  let registry ← d.registry o.path (some out)
  pure { out, generators := config.generators o.only, registry }

/-- What generating takes from a disk before it writes anything, or why it fails over it. -/
def reading (o : GenerateOptions) (d : Disk) : Except CommandError Reading :=
  o.readingIn (Command.projectDirectory d o.path) d

end GenerateOptions

section

variable {ε δ α β : Type}

/-- The value of two steps in a row. -/
theorem toOption_bind (x : Except ε α) (f : α → Except ε β) :
    (x >>= f).toOption = x.toOption.bind fun a => (f a).toOption := by
  cases x <;> rfl

/-- Giving another reason changes no value. -/
theorem toOption_mapError (f : ε → δ) (x : Except ε α) : (x.mapError f).toOption = x.toOption := by
  cases x <;> rfl

end

/-- A registry that cannot be had is missing for a reason. -/
theorem Disk.toOption_registry (d : Disk) (p : Path) (exclude : Option Path) :
    (d.registry p exclude).toOption = d.registry? p exclude := by
  unfold registry registry?
  simp only [toOption_bind, toOption_mapError]
  cases d.sources? p exclude with
  | none => rfl
  | some paths =>
    refine Option.bind_congr fun found hfound => ?_
    obtain rfl := Option.some.inj hfound
    cases Command.loadAll d .empty paths with
    | error e => rfl
    | ok r =>
      dsimp only [Except.toOption, Option.bind_some, Option.filter]
      by_cases hempty : r.isEmpty = true
      · rw [if_pos hempty, if_neg (by simp [hempty])]
        rfl
      · rw [if_neg hempty, if_pos (by simp [hempty])]
        rfl

/-- A reading that cannot be had is missing for a reason. -/
theorem GenerateOptions.toOption_reading (o : GenerateOptions) (d : Disk) :
    (o.reading d).toOption = o.reading? d := by
  unfold reading readingIn reading?
  simp only [toOption_bind, toOption_mapError, Disk.toOption_registry, Option.map_eq_bind]
  rfl

/-- With a configuration and the paths of the sources at hand, reading is loading the sources. -/
theorem GenerateOptions.reading_eq {o : GenerateOptions} {d : Disk} {config : Config} {out : Path}
    {paths : List Path}
    (hconfig : d.config (Command.projectDirectory d o.path) o.config = .ok config)
    (hout : o.out.getD ((Command.projectDirectory d o.path).join config.outputDirectory) = out)
    (hpaths : d.sources? o.path (some out) = some paths) :
    o.reading d =
      ((Command.loadAll d .empty paths).mapError .source >>= fun r =>
        if r.isEmpty then throw (.noSources o.path) else pure r).map fun registry =>
          { out, generators := config.generators o.only, registry } := by
  have hregistry : d.registry o.path (some out) =
      (Command.loadAll d .empty paths).mapError .source >>= fun r =>
        if r.isEmpty then throw (.noSources o.path) else pure r := by
    rw [Disk.registry, hpaths]
    rfl
  rw [← hregistry]
  unfold reading readingIn
  rw [hconfig, ← hout]
  rfl

namespace Command

variable {α β : Type}

/-- An action that looks something up on the disk and leaves the disk alone, even if it fails. -/
def Reads (action : Command α) (look : Disk → Except CommandError α) : Prop :=
  ∀ w, ∃ w', w'.disk = w.disk ∧
    action.run w =
      match look w.disk with
      | .ok a => .ok a w'
      | .error e => .error e w'

section

variable {action : Command α} {look : Disk → Except CommandError α}

/-- After an action that reads, the next one goes on with the same disk. -/
theorem Reads.run_bind (h : Reads action look) (next : α → Command β) (w : World) :
    ∃ w', w'.disk = w.disk ∧
      (action >>= next).run w =
        match look w.disk with
        | .ok a => (next a).run w'
        | .error e => .error e w' := by
  obtain ⟨w', hdisk, hrun⟩ := h w
  refine ⟨w', hdisk, ?_⟩
  rw [EStateM.run_bind, hrun]
  cases look w.disk <;> rfl

/-- Two actions in a row that read. -/
theorem Reads.bind (h : Reads action look) {next : α → Command β}
    {lookNext : α → Disk → Except CommandError β} (hnext : ∀ a, Reads (next a) (lookNext a)) :
    Reads (action >>= next) fun d => look d >>= fun a => lookNext a d := by
  intro w
  obtain ⟨w₁, hfirst, hrun⟩ := h.run_bind next w
  rw [hrun]
  dsimp only
  cases look w.disk with
  | error e => exact ⟨w₁, hfirst, rfl⟩
  | ok a =>
    obtain ⟨w₂, hsecond, hrun⟩ := hnext a w₁
    rw [hfirst] at hrun
    exact ⟨w₂, hsecond.trans hfirst, hrun⟩

/-- What is printed first makes no difference. -/
theorem Prints.reads_bind {first : Command Unit} (h : Prints first) {next : Unit → Command α}
    (hnext : Reads (next ()) look) : Reads (first >>= next) look := by
  intro w
  obtain ⟨w₁, hfirst, hrun⟩ := h.run_bind next w
  obtain ⟨w₂, hsecond, hnext⟩ := hnext w₁
  rw [hfirst] at hnext
  exact ⟨w₂, hsecond.trans hfirst, hrun.trans hnext⟩

end

/-- Handing over a value reads nothing. -/
theorem reads_pure (a : α) : Reads (pure a) fun _ => pure a := fun w => ⟨w, rfl, rfl⟩

/-- Looking at the world shows the disk. -/
theorem reads_get_bind {next : World → Command α} {look : Disk → Disk → Except CommandError α}
    (h : ∀ w, Reads (next w) (look w.disk)) : Reads (get >>= next) fun d => look d d :=
  fun w => h w w

/-- Reading a configuration. -/
theorem reads_loadConfig (directory : Path) (explicit : Option Path) :
    Reads (loadConfig directory explicit)
      fun d => (d.config directory explicit).mapError .config := by
  intro w
  refine ⟨w, rfl, ?_⟩
  cases explicit with
  | some p =>
    simp only [loadConfig, EStateM.run_bind, EStateM.run_get, Disk.config]
    cases Config.ofFile w.disk p <;> rfl
  | none =>
    simp only [loadConfig, EStateM.run_bind, EStateM.run_get, Disk.config]
    cases Config.ofProject w.disk directory <;> rfl

/-- Loading the sources. -/
theorem reads_loadSources (p : Path) (exclude : Option Path) :
    Reads (loadSources p exclude) fun d => d.registry p exclude := by
  intro w
  refine ⟨w, rfl, ?_⟩
  dsimp only [Disk.registry]
  simp only [loadSources, EStateM.run_bind, EStateM.run_get]
  cases w.disk.sources? p exclude with
  | none => rfl
  | some paths =>
    dsimp only [require, Option.elim, EStateM.run_pure]
    rw [pure_bind]
    cases loadAll w.disk .empty paths with
    | error e => rfl
    | ok r =>
      dsimp only [Except.mapError, bind, Except.bind]
      cases r.isEmpty <;> rfl

/-- The first part of generating: reads the configuration and the sources. -/
def readProject (o : GenerateOptions) : Command Reading := do
  let directory := projectDirectory (← get).disk o.path
  let config ← loadConfig directory o.config
  let out := o.out.getD (directory.join config.outputDirectory)
  print ("Generating sources in " ++ o.path.text)
  let registry ← loadSources o.path (some out)
  pure { out, generators := config.generators o.only, registry }

/-- The other part of generating: runs the generators and writes what they yield. -/
def writeReading (parser : Parser) (digest : Digest) (r : Reading) : Command GenerateSummary := do
  print ("  Found: " ++ toString r.registry.size ++ " source files")
  let result := ((Host.ofGenerators r.generators).run parser digest r.registry).2
  showSyntaxErrors result.syntaxErrors
  if result.errorCount > 0 then
    notify ("Warning: " ++ toString result.errorCount ++
      " syntax errors, generating from the recovered trees")
  report r.out result

/-- Generating reads and then writes. -/
theorem generate_eq (parser : Parser) (digest : Digest) (o : GenerateOptions) :
    generate parser digest o = readProject o >>= writeReading parser digest := by
  simp only [generate, readProject, bind_assoc, pure_bind]
  rfl

/-- The first part of generating reads. -/
theorem reads_readProject (o : GenerateOptions) : Reads (readProject o) o.reading := by
  let look (seen : Disk) := o.readingIn (projectDirectory seen o.path)
  change Reads _ fun d => look d d
  refine reads_get_bind fun w => ?_
  exact (reads_loadConfig _ _).bind fun config => (prints_print _).reads_bind <|
    (reads_loadSources _ _).bind fun registry => reads_pure _

/-- Changing the disk fails over the change only. -/
theorem failsOnly_changeDisk {kind : CommandError → Prop} {failure : CommandError}
    (hfailure : kind failure) (change : Disk → Option Disk) :
    FailsOnly kind (changeDisk failure change) := by
  refine failsOnly_get.bind fun w => FailsOnly.bind ?_ fun disk => ?_
  · cases change w.disk with
    | none => exact failsOnly_throw hfailure
    | some disk => exact failsOnly_pure disk
  · intro w e w' hfail
    contradiction

/-- Making directories fails over the directories only. -/
theorem failsOnly_makeDirectories {kind : CommandError → Prop} {failure : CommandError}
    (hfailure : kind failure) (p : Path) : FailsOnly kind (makeDirectories failure p) := by
  refine failsOnly_get.bind fun w => ?_
  generalize w.disk.makeDirectories p = outcome
  obtain ⟨disk, made⟩ := outcome
  refine FailsOnly.bind (fun w e w' hfail => by contradiction) fun _ => ?_
  cases made with
  | true => exact failsOnly_pure ()
  | false => exact failsOnly_throw hfailure

/-- Failures of an action that is done for every element of a list. -/
theorem failsOnly_forM {kind : CommandError → Prop} {action : α → Command Unit}
    (h : ∀ a, FailsOnly kind (action a)) (list : List α) : FailsOnly kind (list.forM action) := by
  induction list with
  | nil => exact failsOnly_pure ()
  | cons a rest ih => exact (h a).bind fun _ => ih

/-- Writing the fragments of one generator fails over writing. -/
theorem failsOnly_writeResult (out : Path) (r : GeneratorResult) :
    FailsOnly CommandError.IsOfWriting (writeResult out r) := by
  refine FailsOnly.bind ?_ fun _ => ?_
  · refine failsOnly_get.bind fun w => ?_
    split
    · exact failsOnly_changeDisk (.clear _) _
    · exact failsOnly_pure ()
  · split
    · exact failsOnly_pure []
    · refine (failsOnly_makeDirectories (.create _) _).bind fun _ => ?_
      exact (failsOnly_forM (fun f => failsOnly_changeDisk (.write _) _) r.sources).bind
        fun _ => failsOnly_pure _

/-- Writing what a run yielded fails over writing. -/
theorem failsOnly_writeOutputs (out : Path) (result : RunResult) :
    FailsOnly CommandError.IsOfWriting (writeOutputs out result) := by
  have hresults (results : List GeneratorResult) :
      FailsOnly CommandError.IsOfWriting (writeResults out results) := by
    induction results with
    | nil => exact failsOnly_pure []
    | cons r rest ih =>
      exact (failsOnly_writeResult out r).bind fun entries => ih.bind fun others =>
        failsOnly_pure (entries ++ others)
  refine (failsOnly_makeDirectories (.outputDirectory _) _).bind fun _ =>
    (hresults result.results).bind fun files => ?_
  exact (failsOnly_changeDisk (.write _) _).bind fun _ => failsOnly_pure _

/-- If the output directory cannot be made, nothing more is done than was done for it. -/
theorem run_writeOutputs_of_not_made {out : Path} {w : World}
    (h : (w.disk.makeDirectories out).2 = false) (result : RunResult) :
    (writeOutputs out result).run w =
      .error (.outputDirectory out) { w with disk := (w.disk.makeDirectories out).1 } := by
  have hrun : (makeDirectories (.outputDirectory out) out).run w =
      .error (.outputDirectory out) { w with disk := (w.disk.makeDirectories out).1 } := by
    simp only [makeDirectories, EStateM.run_bind, EStateM.run_get]
    rw [h]
    rfl
  rw [writeOutputs, EStateM.run_bind, hrun]

/-- What is read lets generators run that do not fail. -/
theorem failures_of_reading {o : GenerateOptions} {d : Disk} {r : Reading}
    (h : o.reading d = .ok r) (parser : Parser) (digest : Digest) :
    ((Host.ofGenerators r.generators).run parser digest r.registry).2.failures = [] := by
  have hreading : o.reading? d = some r := by
    rw [← GenerateOptions.toOption_reading, h]
    rfl
  rw [Host.run_ofGenerators]
  exact failures_ofGenerators (Reading.generators_subset hreading) _ _

/-- An action that ends as another one does, up to what is printed and what is handed over. -/
def EndsAs (action : Command β) (inner : Command α) (value : α → β) : Prop :=
  ∀ w, ∃ seen, seen.disk = w.disk ∧
    match inner.run seen with
    | .ok a w₁ => ∃ w', w'.disk = w₁.disk ∧ action.run w = .ok (value a) w'
    | .error e w₁ => action.run w = .error e w₁

/-- Nothing but printing after an action. -/
theorem endsAs_bind {inner : Command α} {next : α → Command β} {value : α → β}
    (hnext : ∀ a, Reads (next a) fun _ => pure (value a)) :
    EndsAs (inner >>= next) inner value := by
  intro w
  refine ⟨w, rfl, ?_⟩
  rw [EStateM.run_bind]
  cases inner.run w with
  | ok a w₁ => exact hnext a w₁
  | error e w₁ => rfl

/-- Nothing but printing before an action. -/
theorem Prints.endsAs_bind {first : Command Unit} (h : Prints first) {next : Unit → Command β}
    {inner : Command α} {value : α → β} (hnext : EndsAs (next ()) inner value) :
    EndsAs (first >>= next) inner value := by
  intro w
  obtain ⟨w₁, hfirst, hrun⟩ := h.run_bind next w
  obtain ⟨seen, hseen, hends⟩ := hnext w₁
  refine ⟨seen, hseen.trans hfirst, ?_⟩
  rwa [hrun]

/-- Past the reading, generating ends as the writing does, unless a generator fails. -/
theorem writeReading_endsAs (parser : Parser) (digest : Digest) (r : Reading) :
    let result := ((Host.ofGenerators r.generators).run parser digest r.registry).2
    result.failures = [] →
      EndsAs (writeReading parser digest r) (writeOutputs r.out result) fun manifest =>
        { out := r.out, manifest, syntaxErrors := result.errorCount } := by
  intro result hnone
  have hreport : EndsAs (report r.out result) (writeOutputs r.out result) fun manifest =>
      { out := r.out, manifest, syntaxErrors := result.errorCount } := by
    refine endsAs_bind fun manifest => (prints_forM (fun _ => prints_print _) _).reads_bind ?_
    rw [hnone]
    exact prints_failOn_nil.reads_bind ((prints_print _).reads_bind (reads_pure _))
  refine (prints_print _).endsAs_bind ((prints_showSyntaxErrors _).endsAs_bind ?_)
  dsimp only
  split
  · exact (prints_notify _).endsAs_bind hreport
  · exact hreport

section

variable {parser : Parser} {digest : Digest} {o : GenerateOptions} {w : World}

/-- What fails to be read is not there. -/
theorem isOfReading_of_reading_error {d : Disk} {e : CommandError} (h : o.reading d = .error e) :
    e.IsOfReading := by
  have honly : FailsOnly CommandError.IsOfReading (readProject o) :=
    failsOnly_get.bind fun _ => (failsOnly_loadConfig .config _ _).bind fun _ =>
      (prints_print _).failsOnly.bind fun _ =>
        (failsOnly_loadSources .noSuchPath .noSources .source _ _).bind fun _ => failsOnly_pure _
  obtain ⟨w', -, hrun⟩ := reads_readProject o { disk := d }
  rw [h] at hrun
  exact honly _ e w' hrun

/-- A failure of reading ends the command before the disk is changed. -/
theorem run_generate_of_reading_error {e : CommandError} (h : o.reading w.disk = .error e) :
    ∃ w', w'.disk = w.disk ∧ (generate parser digest o).run w = .error e w' := by
  obtain ⟨w', hdisk, hrun⟩ := (reads_readProject o).run_bind (writeReading parser digest) w
  rw [h] at hrun
  exact ⟨w', hdisk, (congrArg (EStateM.run · w) (generate_eq parser digest o)).trans hrun⟩

/-- Once something is read, the failures are those of writing what the generators yield. -/
theorem run_generate_error_iff (parser : Parser) (digest : Digest) {r : Reading}
    (h : o.reading w.disk = .ok r) :
    ∃ seen, seen.disk = w.disk ∧
      ∀ e w', (generate parser digest o).run w = .error e w' ↔
        (writeOutputs r.out ((Host.ofGenerators r.generators).run parser digest r.registry).2).run
          seen = .error e w' := by
  obtain ⟨w₁, hread, hrun⟩ := (reads_readProject o).run_bind (writeReading parser digest) w
  rw [h, ← generate_eq] at hrun
  dsimp only at hrun
  obtain ⟨seen, hseen, hends⟩ :=
    writeReading_endsAs parser digest r (failures_of_reading h parser digest) w₁
  refine ⟨seen, hseen.trans hread, fun e w' => ?_⟩
  rw [hrun]
  split at hends
  · rename_i hwritten
    obtain ⟨w₂, -, hsuccess⟩ := hends
    rw [hsuccess, hwritten]
    exact iff_of_false (by simp) (by simp)
  · rename_i hfailed
    rw [hends, hfailed, EStateM.Result.error.injEq, EStateM.Result.error.injEq]

end

/-- Generating fails before anything is written, or in writing. A failure over what is to be read
leaves the disk as it was, and it is the failure of reading that disk; every such failure ends the
command. Once something is read, the command fails exactly if writing what the generators yield
fails, in the same way. No failure is that of a generator. -/
theorem generate_fails_in_reading_or_writing (parser : Parser) (digest : Digest)
    (o : GenerateOptions) (w : World) :
    (∀ e w', (generate parser digest o).run w = .error e w' → e.IsOfReading →
      w'.disk = w.disk ∧ o.reading w.disk = .error e) ∧
    (∀ e, o.reading w.disk = .error e →
      e.IsOfReading ∧ ∃ w', w'.disk = w.disk ∧ (generate parser digest o).run w = .error e w') ∧
    (∀ r, o.reading w.disk = .ok r →
      let result := ((Host.ofGenerators r.generators).run parser digest r.registry).2
      ∃ seen, seen.disk = w.disk ∧
        ∀ e w', (generate parser digest o).run w = .error e w' ↔
          (writeOutputs r.out result).run seen = .error e w') ∧
    ∀ e w', (generate parser digest o).run w = .error e w' →
      (e.IsOfReading ∨ e.IsOfWriting) ∧ ∀ count, e ≠ .generatorsFailed count := by
  have hwriting {r : Reading} (h : o.reading w.disk = .ok r) {e : CommandError} {w' : World}
      (hfail : (generate parser digest o).run w = .error e w') : e.IsOfWriting := by
    obtain ⟨seen, -, hsame⟩ := run_generate_error_iff parser digest h
    exact failsOnly_writeOutputs _ _ _ _ _ ((hsame e w').mp hfail)
  refine ⟨fun e w' hfail hreading => ?_, fun e h => ⟨isOfReading_of_reading_error h,
    run_generate_of_reading_error h⟩, fun r h => run_generate_error_iff parser digest h,
    fun e w' hfail => ?_⟩
  · cases hread : o.reading w.disk with
    | error e' =>
      obtain ⟨w₁, hdisk, hrun⟩ := run_generate_of_reading_error hread
      obtain ⟨rfl, rfl⟩ := EStateM.Result.error.inj (hrun.symm.trans hfail)
      exact ⟨hdisk, rfl⟩
    | ok r => exact absurd hreading (hwriting hread hfail).not_isOfReading
  · cases hread : o.reading w.disk with
    | error e' =>
      obtain ⟨w₁, -, hrun⟩ := run_generate_of_reading_error hread
      obtain ⟨rfl, rfl⟩ := EStateM.Result.error.inj (hrun.symm.trans hfail)
      have hreading := isOfReading_of_reading_error hread
      exact ⟨.inl hreading, hreading.ne_generatorsFailed⟩
    | ok r =>
      have hwrites := hwriting hread hfail
      exact ⟨.inr hwrites, hwrites.ne_generatorsFailed⟩

/-- A disk with two projects, one of them with a file that is no text. -/
def mixedDisk : Disk :=
  .ofWorking ["home"]
    (.directory "broken" (.file "B.cs" ⟨#[255]⟩ .empty)
      (.directory "proj" (.file "G.cs" greetingText.toUTF8 .empty) .empty))

/-- An output directory below a file, past a directory that does not exist. -/
def blockedOut : Path := ⟨"proj/new/../G.cs/out"⟩

/-- The project whose file is no text cannot be read. -/
theorem reading_broken :
    GenerateOptions.reading { path := ⟨"broken"⟩ } mixedDisk =
      .error (.source (.unreadable ⟨"broken/B.cs"⟩)) := by
  have hconfig : mixedDisk.config ⟨"broken"⟩ none = .ok {} := rfl
  have hentries : mixedDisk.entries? ⟨"broken"⟩ = some (.file "B.cs" ⟨#[255]⟩ .empty) := rfl
  have hsources : mixedDisk.sources? ⟨"broken"⟩ (some ⟨"broken/Generated"⟩) =
      some [⟨"broken/B.cs"⟩] :=
    Disk.sources?_of_sorted hentries (by decide +kernel) (by decide +kernel)
      (List.pairwise_singleton _ _)
  have hload : loadAll mixedDisk .empty [⟨"broken/B.cs"⟩] =
      .error (.unreadable ⟨"broken/B.cs"⟩) := rfl
  refine (GenerateOptions.reading_eq hconfig (by decide +kernel) hsources).trans ?_
  rw [hload]
  rfl

/-- What is read of the other project. -/
def blockedReading : Reading := { greetingReading none with out := blockedOut }

/-- The other project can be read. -/
theorem reading_blocked :
    GenerateOptions.reading { path := ⟨"proj"⟩, out := some blockedOut } mixedDisk =
      .ok blockedReading := by
  have hconfig : mixedDisk.config ⟨"proj"⟩ none = .ok {} := rfl
  have hentries : mixedDisk.entries? ⟨"proj"⟩ =
      some (.file "G.cs" greetingText.toUTF8 .empty) := by decide +kernel
  have hsources : mixedDisk.sources? ⟨"proj"⟩ (some blockedOut) = some [⟨"proj/G.cs"⟩] :=
    Disk.sources?_of_sorted hentries (by decide +kernel) (by decide +kernel)
      (List.pairwise_singleton _ _)
  have hload : loadAll mixedDisk .empty [⟨"proj/G.cs"⟩] = .ok (greetingReading none).registry :=
    Except.toOption_eq_some (by decide +kernel)
  refine (GenerateOptions.reading_eq hconfig rfl hsources).trans ?_
  rw [hload]
  rfl

/-- One project on the disk cannot be read, and generating it leaves the disk. The other one is
read, and generating it fails when it is to be written, after a directory has been made. -/
theorem generate_fails_in_reading_then_in_writing :
    (GenerateOptions.reading { path := ⟨"broken"⟩ } mixedDisk =
        .error (.source (.unreadable ⟨"broken/B.cs"⟩)) ∧
      ∃ w', w'.disk = mixedDisk ∧
        (generate greetingParser .standard { path := ⟨"broken"⟩ }).run { disk := mixedDisk } =
          .error (.source (.unreadable ⟨"broken/B.cs"⟩)) w') ∧
    (GenerateOptions.reading { path := ⟨"proj"⟩, out := some blockedOut } mixedDisk =
        .ok blockedReading ∧
      mixedDisk.isDirectory ⟨"proj/new"⟩ = false ∧
      ∃ w', w'.disk.isDirectory ⟨"proj/new"⟩ = true ∧
        (generate greetingParser .standard { path := ⟨"proj"⟩, out := some blockedOut }).run
            { disk := mixedDisk } =
          .error (.outputDirectory blockedOut) w') := by
  obtain ⟨-, hreads, -, -⟩ := generate_fails_in_reading_or_writing greetingParser .standard
    { path := ⟨"broken"⟩ } { disk := mixedDisk }
  obtain ⟨-, -, hwrites, -⟩ := generate_fails_in_reading_or_writing greetingParser .standard
    { path := ⟨"proj"⟩, out := some blockedOut } { disk := mixedDisk }
  refine ⟨⟨reading_broken, (hreads _ reading_broken).2⟩, reading_blocked, by decide +kernel, ?_⟩
  obtain ⟨seen, hseen, hsame⟩ := hwrites _ reading_blocked
  have hdisk : seen.disk = mixedDisk := hseen
  have hmade : (mixedDisk.makeDirectories blockedOut).2 = false := by decide +kernel
  have hnew : (mixedDisk.makeDirectories blockedOut).1.isDirectory ⟨"proj/new"⟩ = true := by
    decide +kernel
  rw [← hdisk] at hmade hnew
  exact ⟨{ seen with disk := (seen.disk.makeDirectories blockedOut).1 }, hnew,
    (hsame _ _).mpr (run_writeOutputs_of_not_made hmade _)⟩

end Command

end StubGen

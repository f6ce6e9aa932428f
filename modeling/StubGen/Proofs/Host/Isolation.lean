import StubGen.Proofs.Generator.Conversation
import StubGen.Proofs.Generator.HintNames
import StubGen.Proofs.Host.Session

/-!
# Isolation of generators

The generators of a host do not see each other. In every run each of them has a pass of its
own, and its result is a function of the generator and the compilation, whatever the others
do. A pass counts as a whole: its result has all fragments that were taken in, or, if the
program fails, the failure and nothing else.

Generators are any programs here. They may ignore refusals or fail in spite of success.
-/

namespace StubGen

/-- What a result tells of a conversation: all that was taken in, or the failure and nothing
else. -/
structure GeneratorResult.Reports (result : GeneratorResult) (conversation : List Exchange)
    (outcome : Except GeneratorError Unit) : Prop where
  finished : outcome = .ok () →
    result.error = none ∧ result.sources = Exchange.takenIn conversation
  failed : ∀ e, outcome = .error e → result.error = some e ∧ result.sources = []

/-- A result that tells of one whole conversation of the generator with its host. -/
def GeneratorResult.Atomic (g : Generator) (c : Compilation) (result : GeneratorResult) : Prop :=
  result.generator = g.name ∧
    ∃ conversation outcome, (g.program c).Converses conversation outcome ∧
      Exchange.KeepsFirst g.name conversation ∧ result.Reports conversation outcome

/-- A run with one result for each generator, in order. Apart from the flags that tell what was
carried over, each result is what its generator yields for the compilation. -/
structure RunResult.Isolated (generators : List Generator) (c : Compilation) (run : RunResult) :
    Prop where
  results : run.forgetReuse.results = generators.map (·.result c)
  atomic : List.Forall₂ (GeneratorResult.Atomic · c ·) generators run.results

/-- What a generator yields tells of one whole conversation. -/
theorem Generator.atomic_result (g : Generator) (c : Compilation) :
    (g.result c).Atomic g c := by
  obtain ⟨conversation, hconverses, hanswers, hafter⟩ :=
    Pass.exists_conversation { generator := g.name } (g.program c)
  refine ⟨generator_result g c, conversation, _, hconverses, hanswers.keepsFirst, ?_⟩
  cases hrun : Pass.run { generator := g.name } (g.program c) with
  | mk pass outcome =>
    rw [hrun] at hafter
    obtain rfl : pass = _ := hafter
    cases outcome with
    | ok _ =>
      have hstored := Pass.sources_after hanswers
      rw [List.nil_append] at hstored
      refine ⟨fun _ => ?_, by simp⟩
      rw [result, hrun]
      exact ⟨rfl, hstored⟩
    | error e =>
      refine ⟨by simp, fun e' he => ?_⟩
      obtain rfl := Except.error.inj he
      rw [result, hrun]
      exact ⟨rfl, rfl⟩

/-- The flags do not matter for what a result tells. -/
theorem GeneratorResult.Atomic.of_forgetReuse {g : Generator} {c : Compilation}
    {result : GeneratorResult} (h : Atomic g c { result with reused := false }) :
    result.Atomic g c := by
  obtain ⟨hname, conversation, outcome, hconverses, hkeeps, hreports⟩ := h
  exact ⟨hname, conversation, outcome, hconverses, hkeeps, hreports.finished, hreports.failed⟩

/-- A run is isolated as soon as its results, flags aside, are those of its generators. -/
theorem RunResult.Isolated.of_results {generators : List Generator} {c : Compilation}
    {run : RunResult} (h : run.forgetReuse.results = generators.map (·.result c)) :
    run.Isolated generators c := by
  refine ⟨h, ?_⟩
  have hall : List.Forall₂ (fun g result => GeneratorResult.Atomic g c result) generators
      run.forgetReuse.results := by
    rw [h, List.forall₂_map_right_iff]
    exact List.forall₂_same.mpr fun g _ => g.atomic_result c
  rw [RunResult.forgetReuse, List.forall₂_map_right_iff] at hall
  exact hall.imp fun _ _ hatomic => hatomic.of_forgetReuse

namespace Host

variable {parser : Parser} {digest : Digest} {h : Host}

/-- A host that keeps, if anything, what its generators yielded for one compilation. -/
def Remembers (h : Host) : Prop :=
  ∀ kept ∈ h.previous, ∃ c, kept.2 = h.generators.map (·.result c)

/-- Whatever the digests are, a run yields what the generators yield for one compilation, and
remembers nothing else. -/
theorem Remembers.run (hr : h.Remembers) (parser : Parser) (digest : Digest) (r : Registry) :
    (∃ c, (h.run parser digest r).2.Isolated h.generators c) ∧
      (h.run parser digest r).1.Remembers := by
  simp only [Host.run, runM, List.mapM_pure, pure_bind]
  split
  · rename_i results hcarried
    obtain ⟨kept, hprevious, rfl⟩ := carriedOver?_eq_some hcarried
    obtain ⟨c, hkept⟩ := hr _ hprevious
    refine ⟨⟨c, .of_results ?_⟩, hr⟩
    obtain rfl : kept = _ := hkept
    rw [Id.run_pure, forgetReuse_marked, forgetReuse_fresh]
  · refine ⟨⟨_, .of_results (congrArg RunResult.results (forgetReuse_fresh _ _ _))⟩, ?_⟩
    intro kept hkept
    obtain rfl := Option.some.inj hkept
    exact ⟨_, rfl⟩

/-- In every session of a host that remembers only results of its generators, each run is
isolated. -/
theorem Remembers.session (hr : h.Remembers) (r : Registry) (steps : List SessionStep) :
    ∀ run ∈ h.session parser digest r steps, ∃ c, run.Isolated h.generators c := by
  induction steps generalizing h r with
  | nil => simp [Host.session]
  | cons step rest ih =>
    cases step with
    | edit operation => exact ih hr _
    | run =>
      obtain ⟨hnow, hnext⟩ := hr.run parser digest r
      have hlater := ih hnext r
      rw [run_generators] at hlater
      exact List.forall_mem_cons.mpr ⟨hnow, hlater⟩

/-- Generators are isolated from each other and from their past, and each pass counts as a whole.
In every run of every session there is one result for each generator, in order; each is what
its generator alone yields for one compilation, and it tells of a whole conversation in which
the first fragment of each name was kept. The compilation is that of the files at that moment
in the first run of a host, and in every run if the digest tells the files apart. -/
theorem session_isolated (generators : List Generator) (steps : List SessionStep) :
    (∀ r, ((ofGenerators generators).run parser digest r).2.Isolated generators
      (r.compilation parser)) ∧
    (∀ run ∈ (ofGenerators generators).session parser digest Registry.empty steps,
      ∃ c, run.Isolated generators c) ∧
    (digest.TellsApart parser (Registry.empty.atRuns steps) →
      List.Forall₂ (fun r run => run.Isolated generators (r.compilation parser))
        (Registry.empty.atRuns steps)
        ((ofGenerators generators).session parser digest Registry.empty steps)) := by
  have hfirst (r : Registry) : ((ofGenerators generators).run parser digest r).2.Isolated
      generators (r.compilation parser) := by
    refine .of_results ?_
    rw [run_ofGenerators, forgetReuse_fresh]
  refine ⟨hfirst, Remembers.session (by simp [Remembers, ofGenerators]) _ steps,
    fun hdigest => ?_⟩
  have hsession := (coherent_ofGenerators generators).session_result Registry.numbered_empty
    (by simp) hdigest (List.nil_subset _) steps (List.Subset.refl _)
  rw [eq_comm, ← List.forall₂_eq_eq_eq, List.forall₂_map_left_iff,
    List.forall₂_map_right_iff] at hsession
  exact hsession.imp fun r run heq => .of_results (by rw [← heq, run_ofGenerators]; rfl)

/-- A generator that goes on after a refusal keeps what it added first, and one that fails takes
only its own fragments away, also when the results are carried over. -/
theorem session_isolated_of_ignored_refusal :
    let digest : Digest :=
      { text := fun text => text.length.toUInt64
        listing := fun trees files =>
          files.foldl (fun n f => (n * 100 + f.1.index.toUInt64) * 100 + f.2) trees.toUInt64 }
    let parser : Parser := fun file _ => { tree := some (Tree.empty file), errors := [] }
    let steps : List SessionStep := [.edit (.add ⟨"a.cs"⟩ "class A;"), .run, .run]
    let stubborn : Generator :=
      { name := "stubborn"
        program := fun _ => .add ⟨"A.g.cs", "first"⟩ fun _ => .add ⟨"A.g.cs", "second"⟩ fun _ =>
          .add ⟨"B.g.cs", "third"⟩ fun _ => .finish (.ok ()) }
    let strict : Generator :=
      { name := "strict"
        program := fun _ => .addAll [⟨"A.g.cs", "first"⟩, ⟨"A.g.cs", "second"⟩] }
    let runs := (ofGenerators [stubborn, strict]).session parser digest Registry.empty steps
    let yielded (reused : Bool) : List GeneratorResult :=
      [{ generator := "stubborn", sources := [⟨"A.g.cs", "first"⟩, ⟨"B.g.cs", "third"⟩]
         error := none, reused },
        { generator := "strict", sources := []
          error := some (.duplicateHintName "strict" "A.g.cs"), reused }]
    digest.TellsApart parser (Registry.empty.atRuns steps) ∧
      runs.map (·.results) = [yielded false, yielded true] ∧
      List.Forall₂ (fun r run => run.Isolated [stubborn, strict] (r.compilation parser))
        (Registry.empty.atRuns steps) runs := by
  intro digest parser steps stubborn strict runs yielded
  have hdigest : digest.TellsApart parser (Registry.empty.atRuns steps) :=
    ⟨by decide +kernel, by decide +kernel⟩
  exact ⟨hdigest, by decide +kernel, (session_isolated [stubborn, strict] steps).2.2 hdigest⟩

end Host

end StubGen

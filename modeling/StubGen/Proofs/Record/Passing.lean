import StubGen.Proofs.Record.Selection
import StubGen.Proofs.Text.Dotted

/-!
# How a completed method takes its parameter

The fragment of a record takes the parameter of the method as an ordinary string. What the
declaration says of the way in which the argument is passed is read with the file, but it is no
part of a method's symbol, so it neither keeps a method from being completed nor comes back in
the fragment. The two declarations of the method agree only where nothing is said.
-/

namespace StubGen

/-- The modifiers that say how the argument for a parameter is passed. -/
def Modifiers.passingTokens : List String := ["ref", "out", "in", "this", "scoped", "params"]

namespace Declaration.Parameter

/-- How the argument is passed. An ordinary argument has no such modifier. -/
def passing (p : Declaration.Parameter) : List String :=
  p.modifiers.tokens.filter fun token => token ∈ Modifiers.passingTokens

/-- A string parameter as another declaration of the method has to write it. -/
def stringText (p : Declaration.Parameter) : String :=
  Text.joined " " (p.passing ++ ["string", p.name])

variable {p : Declaration.Parameter}

/-- An argument is passed in the ordinary way if no modifier says otherwise. -/
theorem passing_eq_nil_iff :
    p.passing = [] ↔ ∀ token ∈ Modifiers.passingTokens, token ∉ p.modifiers.tokens := by
  rw [passing, List.filter_eq_nil_iff]
  simp only [decide_eq_true_eq]
  exact ⟨fun h token hpassing hwritten => h token hwritten hpassing,
    fun h token hwritten hpassing => h token hpassing hwritten⟩

/-- A string parameter is written as a type and a name exactly if its argument is an ordinary
one. -/
theorem stringText_eq_iff :
    p.stringText = "string " ++ p.name ↔
      ∀ token ∈ Modifiers.passingTokens, token ∉ p.modifiers.tokens := by
  have hplain : Text.joined " " ["string", p.name] = "string " ++ p.name := rfl
  rw [← passing_eq_nil_iff, ← hplain]
  exact Text.joined_append_eq_self_iff (by decide) (List.cons_ne_nil _ _)

end Declaration.Parameter

namespace Record

/-- The line that declares the method of a record with a given parameter. -/
def signature (r : Record) (parameter : String) : String :=
  Template.indent ++ r.modifiers.text ++ " void " ++ r.memberName ++ "(" ++ parameter ++ ")"

/-- The fragment of a record declares the method with a string of the record's name. -/
theorem fragment_signature {r : Record} (henum : r.typeKind ≠ .enumKind)
    (hdelegate : r.typeKind ≠ .delegateKind) (hintName : String) :
    ∃ before after, r.fragment hintName =
      .ok { hintName := hintName
            sourceText := Text.joined "\n"
              (before ++ r.signature ("string " ++ r.parameterName) :: after) } := by
  obtain ⟨keyword, hkeyword⟩ := TypeKind.partialKeyword_ok henum hdelegate r.typeName
  have hline : (r.template keyword).methodLine =
      r.signature ("string " ++ r.parameterName) := by
    simp only [Template.methodLine, template, signature, String.append_assoc]
    rfl
  have hlines : ∃ before, (r.template keyword).lines =
      before ++ [(r.template keyword).methodLine, (r.template keyword).bodyLine, "\x7d"] :=
    ⟨_, rfl⟩
  obtain ⟨before, hbefore⟩ := hlines
  refine ⟨before, [(r.template keyword).bodyLine, "\x7d"], ?_⟩
  rw [fragment, hkeyword, ← hline, ← hbefore]
  rfl

end Record

namespace Compilation

/-- The fragment of a record declares its method with the only parameter of the method, as a
type and a name. That is how the parameter has to be written exactly if no modifier of the
declared parameter says how the argument is passed. -/
theorem fragment_takes_parameter (c : Compilation) {r : Record} (hr : r ∈ c.records)
    (hintName : String) :
    ∃ p, r.node.declaration.parameters = [p] ∧
      (∃ before after, r.fragment hintName =
        .ok { hintName := hintName
              sourceText := Text.joined "\n"
                (before ++ r.signature ("string " ++ p.name) :: after) }) ∧
      (p.stringText = "string " ++ p.name ↔
        ∀ token ∈ Modifiers.passingTokens, token ∉ p.modifiers.tokens) := by
  obtain ⟨-, hrecord⟩ := isRecordOf_of_mem_records hr
  obtain ⟨henum, hdelegate⟩ := typeKind_of_mem_records hr
  obtain ⟨p, hp, hname⟩ := List.map_eq_singleton_iff.mp hrecord.parameterName_eq
  refine ⟨p, hp, ?_, Declaration.Parameter.stringText_eq_iff⟩
  rw [hname]
  exact Record.fragment_signature henum hdelegate hintName

/-- A file with an annotated method whose parameter has the given modifiers. -/
def passedFile (m : Modifiers) : Tree :=
  Tree.ofForest ⟨0⟩ {} (.cons
    { kind := .typeDeclaration .classType, name := "Robot", modifiers := .ofTokens ["partial"] }
    (.cons
      { kind := .methodDeclaration, name := "Speak"
        attributes := [{ name := "global::SourceGeneratorSample.Greetings.SayHello2" }]
        modifiers := .ofTokens ["static", "partial"], returnType := some (.keyword .void)
        parameters := [{ name := "text", type := some (.keyword .string), modifiers := m }] }
      .nil .nil)
    .nil)

/-- The method of the file. -/
def passedMethod (m : Modifiers) : NodeRef := ⟨passedFile m, ⟨2, show 2 < 3 by decide⟩⟩

/-- The attribute of the method is written in full, so it binds wherever it stands. -/
theorem attributeBinds_rooted (model : Model) (i : Fin model.tree.size) :
    model.attributeBinds i "global::SourceGeneratorSample.Greetings.SayHello2"
      greetingAttribute = true := by
  have hsimple : simpleNameMatches "global::SourceGeneratorSample.Greetings.SayHello2"
      greetingAttribute = true := by decide +kernel
  have hrooted : Text.afterStart? rootMark "global::SourceGeneratorSample.Greetings.SayHello2" =
      some "SourceGeneratorSample.Greetings.SayHello2" := by decide +kernel
  rw [Model.attributeBinds, hsimple, hrooted, Bool.true_and]
  exact (by decide +kernel : ((Text.qualifierAndName "SourceGeneratorSample.Greetings.SayHello2").1
    == (Text.qualifierAndName greetingAttribute).1) = true)

/-- The method of the file is completed, whatever modifiers its parameter has. -/
theorem exists_record_passedFile (m : Modifiers) :
    ∃ r ∈ records ⟨[passedFile m]⟩, r.node = passedMethod m := by
  have hcompletable : Completable ⟨[passedFile m]⟩ (passedMethod m) :=
    { isMethod := rfl
      isPartial := show "partial" ∈ ["static", "partial"] by decide
      isStatic := show "static" ∈ ["static", "partial"] by decide
      inPartialType := ⟨⟨passedFile m, ⟨1, show 1 < 3 by decide⟩⟩, rfl, .classType, rfl,
        by decide, show "partial" ∈ ["partial"] by decide⟩
      isAnnotated := ⟨_, List.mem_singleton_self _, attributeBinds_rooted _ _⟩
      notGeneric := rfl
      oneParameter := rfl
      takesString := fun parameter hparameter => by
        obtain rfl := List.mem_singleton.mp hparameter
        exact ⟨_, rfl, rfl⟩
      returnsNothing := ⟨_, rfl, rfl⟩ }
  apply List.mem_map.mp
  rw [map_node_records]
  exact List.mem_filter.mpr ⟨mem_preorder.mpr List.mem_cons_self, decide_eq_true hcompletable⟩

/-- A string that is taken by value is written as it is declared. -/
theorem fragment_takes_parameter_by_value :
    ∃ r ∈ records ⟨[passedFile {}]⟩, ∃ p, r.node.declaration.parameters = [p] ∧
      (∃ before after, r.fragment "Robot.cs" =
        .ok { hintName := "Robot.cs"
              sourceText := Text.joined "\n"
                (before ++ r.signature ("string " ++ p.name) :: after) }) ∧
      (p.stringText = "string " ++ p.name ↔
        ∀ token ∈ Modifiers.passingTokens, token ∉ p.modifiers.tokens) := by
  obtain ⟨r, hr, -⟩ := exists_record_passedFile {}
  exact ⟨r, hr, fragment_takes_parameter ⟨[passedFile {}]⟩ hr "Robot.cs"⟩

/-- A string that is passed by reference is written in the fragment as one that is not. -/
theorem fragment_drops_ref :
    ∃ r ∈ records ⟨[passedFile (.ofTokens ["ref"])]⟩,
      r.node.declaration.parameters.map (·.stringText) = ["ref string text"] ∧
      ∃ before after, r.fragment "Robot.cs" =
        .ok { hintName := "Robot.cs"
              sourceText := Text.joined "\n"
                (before ++ "    static partial void Speak(string text)" :: after) } := by
  obtain ⟨r, hr, hnode⟩ := exists_record_passedFile (.ofTokens ["ref"])
  obtain ⟨-, hrecord⟩ := isRecordOf_of_mem_records hr
  obtain ⟨henum, hdelegate⟩ := typeKind_of_mem_records hr
  have hmember : r.memberName = "Speak" := hrecord.memberName_eq.trans (by rw [hnode]; rfl)
  have hparameter : r.parameterName = "text" := by
    have hnames := hrecord.parameterName_eq
    rw [hnode] at hnames
    exact (List.singleton_inj.mp hnames).symm
  have hsignature : r.signature ("string " ++ r.parameterName) =
      "    static partial void Speak(string text)" := by
    rw [Record.signature, Record.modifiers, hnode, hmember, hparameter]
    decide +kernel
  refine ⟨r, hr, ?_, ?_⟩
  · rw [hnode]
    decide +kernel
  · rw [← hsignature]
    exact Record.fragment_signature henum hdelegate "Robot.cs"

end Compilation

end StubGen

import StubGen.Proofs.Concrete.Written
import StubGen.Proofs.Record.Reopening

/-!
# From the source text to the fragment

The fragment of a record is a file with a single method. The modifiers of the method are the
bytes of the source text from the first modifier of the declaration to the last, whatever
stands between them, and the names of the method and its parameter are the written ones. All
the rest goes by the namespace, the kind and the name of the type.

The concrete tree is arbitrary as long as it fits the source text.
-/

namespace StubGen

/-- A piece of an interpolated string. -/
inductive StringPiece where
  | literal (text : String)
  /-- The place for the value of an expression. -/
  | interpolation (expression : String)
deriving DecidableEq, Repr

/-- The piece as it is written. -/
def StringPiece.text : StringPiece → String
  | literal text => text
  | interpolation expression => "\x7b" ++ expression ++ "\x7d"

/-- A method of a generated file that takes a string and writes a line. -/
structure GeneratedMethod where
  modifiers : String
  name : String
  parameter : String
  /-- The line that is written. -/
  message : List StringPiece
deriving DecidableEq, Repr

namespace GeneratedMethod

/-- The line that declares the method. -/
def declarationLine (m : GeneratedMethod) : String :=
  "    " ++ m.modifiers ++ " void " ++ m.name ++ "(string " ++ m.parameter ++ ")"

/-- The line of the body. -/
def bodyLine (m : GeneratedMethod) : String :=
  "        => global::System.Console.WriteLine($\"" ++
    Text.joined "" (m.message.map (·.text)) ++ "\");"

/-- The lines of the method. -/
def lines (m : GeneratedMethod) : List String := [m.declarationLine, m.bodyLine]

end GeneratedMethod

/-- A part of a type in a file of its own. -/
structure TypePart where
  inNamespace : Namespace
  typeKind : TypeKind
  typeName : String
deriving DecidableEq, Repr

/-- The lines before the members. -/
def TypePart.opening (p : TypePart) : List String :=
  ["// <auto-generated/>", "", "#nullable enable"] ++
    (if p.inNamespace.isGlobal then []
      else ["namespace " ++ Text.joined "." p.inNamespace.segments ++ ";"]) ++
    ["", "partial " ++ p.typeKind.display ++ " " ++ p.typeName, "\x7b"]

/-- A generated file: methods in a part of a type. -/
structure GeneratedFile extends TypePart where
  methods : List GeneratedMethod
deriving DecidableEq, Repr

/-- The text of the file. -/
def GeneratedFile.text (f : GeneratedFile) : String :=
  Text.joined "\n" (f.opening ++ f.methods.flatMap (·.lines) ++ ["\x7d"])

/-- A namespace is declared exactly if it is not the global one. -/
theorem TypePart.exists_namespaceLine_iff (p : TypePart) :
    (∃ line ∈ p.opening, Text.startsWith "namespace " line = true) ↔
      p.inNamespace.isGlobal = false := by
  have hheading : Text.startsWith "namespace " ("partial " ++ p.typeKind.display ++ " " ++
      p.typeName) = false := by
    rw [String.append_assoc, String.append_assoc, Text.startsWith, String.toList_append]
    rfl
  cases hglobal : p.inNamespace.isGlobal with
  | true =>
    have hnone : ∀ line ∈ p.opening, Text.startsWith "namespace " line = false := by
      simp only [opening, hglobal, if_true, List.append_nil, List.cons_append, List.nil_append,
        List.forall_mem_cons]
      exact ⟨by decide, by decide, by decide, by decide, hheading, by decide, by simp⟩
    refine iff_of_false (fun hline => ?_) (by simp)
    obtain ⟨line, hmem, hstarts⟩ := hline
    exact Bool.false_ne_true ((hnone line hmem).symm.trans hstarts)
  | false =>
    refine iff_of_true
      ⟨"namespace " ++ (Text.joined "." p.inNamespace.segments ++ ";"), ?_, ?_⟩ rfl
    · simp [opening, hglobal, String.append_assoc]
    · rw [Text.startsWith, String.toList_append]
      rfl

/-- The text ends in the brace that closes the type. -/
theorem GeneratedFile.exists_text_eq (f : GeneratedFile) :
    ∃ before, f.text = before ++ "\n\x7d" := by
  have hlines : f.opening ++ f.methods.flatMap (·.lines) ≠ [] := by simp [TypePart.opening]
  refine ⟨Text.joined "\n" (f.opening ++ f.methods.flatMap (·.lines)), ?_⟩
  rw [text, Text.joined_append hlines (List.cons_ne_nil _ _), String.append_assoc]
  rfl

/-- A type that can be reopened is reopened by the keyword of its kind. -/
theorem TypeKind.partialKeyword_eq_display {kind : TypeKind} (henum : kind ≠ .enumKind)
    (hdelegate : kind ≠ .delegateKind) (typeName : String) :
    kind.partialKeyword typeName = .ok kind.display := by
  cases kind with
  | enumKind => exact absurd rfl henum
  | delegateKind => exact absurd rfl hdelegate
  | _ => rfl

namespace Record

/-- The method of a concrete tree that a record was drawn from. The nodes of the declaration
tree are numbered like the kept nodes of the concrete tree, from one on. -/
structure IsDrawnFrom (r : Record) (source : String) (root method : Concrete) : Prop where
  numbered : ∃ kept position k, Concrete.Lists root.Keeps kept ∧
    kept[k]? = some (position, method) ∧ r.node.id.val = k + 1
  isMethod : method.node.IsMethod
  memberName : method.Names source r.memberName
  parameterName : ∃ list parameter, method.parameterList? = some list ∧
    list.children.filter (·.readsAsParameter) = [parameter] ∧
      parameter.Names source r.parameterName

/-- The part of the type that holds the method. -/
def typePart (r : Record) : TypePart where
  inNamespace := r.inNamespace
  typeKind := r.typeKind
  typeName := r.typeName

/-- The completed method, under the given modifiers. -/
def completedMethod (r : Record) (modifiers : String) : GeneratedMethod where
  modifiers := modifiers
  name := r.memberName
  parameter := r.parameterName
  message := [.literal "Hello, ", .interpolation r.parameterName, .literal "!"]

/-- The file that completes the method under the given modifiers. -/
def completion (r : Record) (modifiers : String) : GeneratedFile :=
  { r.typePart with methods := [r.completedMethod modifiers] }

/-- A fragment completes the method of a concrete tree under the modifiers that are written from
its first modifier node to its last. -/
structure CompletedAsWritten (r : Record) (source : String) (root : Concrete) (hintName : String)
    (method : Concrete) (first last : ConcreteNode) (written : String) : Prop where
  drawn : r.IsDrawnFrom source root method
  atFirst : method.modifierNodes.head? = some first
  atLast : method.modifierNodes.getLast? = some last
  between : Text.IsSlice source first.start last.stop written
  /-- The fragment is the part of the type with one method. -/
  fragment : r.fragment hintName =
    .ok { hintName := hintName, sourceText := (r.completion written).text }
  /-- A namespace is declared exactly if it is not the global one. -/
  namespaceLine : (∃ line ∈ r.typePart.opening, Text.startsWith "namespace " line = true) ↔
    r.inNamespace.isGlobal = false
  /-- There is no line break at the end. -/
  ending : ∀ f, r.fragment hintName = .ok f → ∃ before, f.sourceText = before ++ "\n\x7d"

/-- The pieces of the greeting in a row. -/
theorem joined_greeting (parameter : String) :
    Template.indent ++ Template.indent ++ "=> global::System.Console.WriteLine($\"Hello, \x7b" ++
        parameter ++ "\x7d!\");" =
      "        => global::System.Console.WriteLine($\"" ++
        Text.joined "" ["Hello, ", "\x7b" ++ parameter ++ "\x7d", "!"] ++ "\");" := by
  rw [← String.toList_inj]
  simp [Text.joined, Template.indent]

/-- The fragment of a record completes its method. -/
theorem fragment_eq {r : Record} (hproper : r.inNamespace.Proper)
    (henum : r.typeKind ≠ .enumKind) (hdelegate : r.typeKind ≠ .delegateKind)
    (hintName : String) :
    r.fragment hintName =
      .ok { hintName := hintName, sourceText := (r.completion r.modifiers.text).text } := by
  have hglobal : Text.joined "." r.inNamespace.segments = "" ↔
      r.inNamespace.isGlobal = true := by
    rw [Text.joined_eq_empty_iff hproper, Namespace.isGlobal, List.isEmpty_iff]
  have hopening : ["// <auto-generated/>", "", "#nullable enable"] ++
      (if r.inNamespace.emitted = "" then [] else ["namespace " ++ r.inNamespace.emitted ++ ";"]) ++
      ["", "partial " ++ r.typeKind.display ++ " " ++ r.typeName, "\x7b"] =
        r.typePart.opening := by
    simp only [Namespace.emitted_eq, hglobal]
    rfl
  have hbody : (r.template r.typeKind.display).bodyLine =
      (r.completedMethod r.modifiers.text).bodyLine := joined_greeting r.parameterName
  have hlines : (r.template r.typeKind.display).lines =
      r.typePart.opening ++ (r.completedMethod r.modifiers.text).lines ++
        ["\x7d"] := by
    rw [Template.lines, hbody, ← hopening, List.append_assoc _ _ ["\x7d"]]
    exact congrArg (· ++ _) (List.append_nil _)
  rw [Record.fragment, TypeKind.partialKeyword_eq_display henum hdelegate, Except.map,
    Template.render, hlines, GeneratedFile.text]
  simp only [completion, List.flatMap_cons, List.flatMap_nil, List.append_nil]

end Record

/-- A method of a declaration tree that was lowered is the declaration of a method of the concrete
tree, and has its place among the kept nodes. -/
theorem Tree.exists_method_of_ofConcrete {file : FileId} {source : String} {root : Concrete}
    {n : NodeRef} (htree : n.tree = ofConcrete file source root)
    (hkind : n.declaration.kind = .methodDeclaration) :
    ∃ kept position method k, Concrete.Lists root.Keeps kept ∧
      kept[k]? = some (position, method) ∧ n.id.val = k + 1 ∧ method.node.IsMethod ∧
      n.declaration = method.methodDeclaration source := by
  obtain ⟨t, i⟩ := n
  obtain rfl : t = ofConcrete file source root := htree
  obtain ⟨k, hk⟩ : ∃ k, i.val = k + 1 := by
    refine Nat.exists_eq_succ_of_ne_zero fun hzero => ?_
    rw [NodeRef.declaration, declaration, dif_pos hzero] at hkind
    cases hkind
  obtain ⟨kept, position, method, hkept, hentry, hdeclared⟩ :=
    exists_keeps_of_declaration file source root hk
  obtain ⟨hmethod, hsame⟩ := Concrete.eq_methodDeclaration_of_declared? hdeclared hkind
  exact ⟨kept, position, method, k, hkept, hentry, hk, hmethod, hsame⟩

namespace Compilation

/-- Every record of a method of a file was drawn from a method of the concrete tree, which fits
the source text if the file does. -/
theorem exists_isDrawnFrom {file : FileId} {source : String} {root : Concrete}
    (hroot : root.Fits source) {c : Compilation} {r : Record} (hr : r ∈ c.records)
    (htree : r.node.tree = Tree.ofConcrete file source root) :
    ∃ method, r.IsDrawnFrom source root method ∧ method.Fits source ∧
      r.node.declaration = method.methodDeclaration source := by
  obtain ⟨hcompletable, hrecord⟩ := isRecordOf_of_mem_records hr
  obtain ⟨kept, position, method, k, hkept, hentry, hid, hmethod, hsame⟩ :=
    Tree.exists_method_of_ofConcrete htree hcompletable.isMethod
  have hkeeps := (hkept.mem_iff position method).mp (List.mem_of_getElem? hentry)
  have hfits : method.Fits source := hroot.at? hkeeps.1.at?_eq
  obtain ⟨p, hp, hname⟩ := List.map_eq_singleton_iff.mp hrecord.parameterName_eq
  rw [hsame] at hp
  obtain ⟨list, parameter, hlist, honly, rfl⟩ := Concrete.exists_node_of_parameters hp
  have hlistFits : list.Fits source := by
    rcases Option.or_eq_some_iff.mp hlist with hfield | ⟨-, hchild⟩
    · exact (hfits.child (List.mem_of_find?_eq_some hfield)).1
    · exact (hfits.child (List.mem_of_find?_eq_some hchild)).1
  have hparameter : parameter ∈ list.children :=
    List.mem_of_mem_filter (honly ▸ List.mem_singleton_self parameter)
  refine ⟨method, ⟨⟨kept, position, k, hkept, hentry, hid⟩, hmethod, ?_, ?_⟩, hfits, hsame⟩
  · rw [hrecord.memberName_eq, hsame]
    exact hfits.names
  · refine ⟨list, parameter, hlist, honly, ?_⟩
    rw [← hname]
    exact (hlistFits.child hparameter).1.names

/-- Modifiers and names reach the fragment as they are written. For a file whose concrete tree fits
its text, the fragment of a record is a file with one method, in the part of the type that the
record names. The modifiers of the method are the text from the first modifier node of the
declaration to the last, its names are those of the declaration and its parameter, and it
writes a greeting with the parameter as the only interpolation. A namespace is declared exactly
if it is not the global one, and the text ends in a brace. -/
theorem fragment_verbatim {file : FileId} {source : String} {root : Concrete}
    (hroot : root.Fits source) (c : Compilation) {r : Record} (hr : r ∈ c.records)
    (htree : r.node.tree = Tree.ofConcrete file source root) (hintName : String) :
    ∃ method first last written,
      r.CompletedAsWritten source root hintName method first last written := by
  obtain ⟨method, hdrawn, hfits, hsame⟩ := exists_isDrawnFrom hroot hr htree
  obtain ⟨hcompletable, -⟩ := isRecordOf_of_mem_records hr
  obtain ⟨henum, hdelegate⟩ := typeKind_of_mem_records hr
  obtain ⟨p, -, -, -, -, -, -, hnamespace⟩ := exists_type_of_mem_records hr
  have hproper : r.inNamespace.Proper := by
    rw [hnamespace]
    exact Model.enclosingNamespace_proper (m := c.model p.tree) p.id
  have hmodifiers : r.modifiers = method.modifiers source := by rw [Record.modifiers, hsame]; rfl
  have htoken : Modifiers.partialToken ∈ (method.modifiers source).tokens := by
    rw [← hmodifiers]
    exact hcompletable.isPartial
  obtain ⟨first, last, hfirst, hlast⟩ := Concrete.exists_modifierNodes htoken
  have hfragment := Record.fragment_eq hproper henum hdelegate hintName
  refine ⟨method, first, last, r.modifiers.text, hdrawn, hfirst, hlast, ?_, hfragment,
    r.typePart.exists_namespaceLine_iff, ?_⟩
  · rw [hmodifiers]
    exact hfits.modifiers_text hfirst hlast
  · intro f hf
    obtain rfl := Except.ok.inj (hfragment.symm.trans hf)
    exact GeneratedFile.exists_text_eq _

/-- A file with two characters of three bytes, a line break and a tab between the modifiers of its
method. -/
def spacedText : String :=
  "namespace SourceGeneratorSample.Greetings;\n" ++
    "partial class C \x7b [SayHello2] public /* 你好 */\n  static\tpartial void M(string a); \x7d"

open Concrete in
/-- The concrete tree of the file. -/
def spacedFile : Concrete :=
  branch "compilation_unit" 0 129
    [branch "file_scoped_namespace_declaration" 0 42
      [leaf "namespace" false 0 9,
        branch "qualified_name" 10 41
          [leaf "identifier" true 10 31 "qualifier", leaf "." false 31 32,
            leaf "identifier" true 32 41 "name"] "name",
        leaf ";" false 41 42],
      branch "class_declaration" 43 129
        [branch "modifier" 43 50 [leaf "partial" false 43 50], leaf "class" false 51 56,
          leaf "identifier" true 57 58 "name",
          branch "declaration_list" 59 129
            [leaf "\x7b" false 59 60,
              branch "method_declaration" 61 127
                [branch "attribute_list" 61 72
                  [leaf "[" false 61 62,
                    branch "attribute" 62 71 [leaf "identifier" true 62 71 "name"],
                    leaf "]" false 71 72],
                  branch "modifier" 73 79 [leaf "public" false 73 79],
                  leaf "comment" true 80 92,
                  branch "modifier" 95 101 [leaf "static" false 95 101],
                  branch "modifier" 102 109 [leaf "partial" false 102 109],
                  leaf "predefined_type" true 110 114 "returns",
                  leaf "identifier" true 115 116 "name",
                  branch "parameter_list" 116 126
                    [leaf "(" false 116 117,
                      branch "parameter" 117 125
                        [leaf "predefined_type" true 117 123 "type",
                          leaf "identifier" true 124 125 "name"],
                      leaf ")" false 125 126] "parameters",
                  leaf ";" false 126 127],
              leaf "\x7d" false 128 129] "body"]]

/-- The text of the fragment for the method. -/
def spacedFragment : String :=
  Text.joined "\n"
    ["// <auto-generated/>", "", "#nullable enable", "namespace SourceGeneratorSample.Greetings;",
      "", "partial class C", "\x7b", "    public /* 你好 */", "  static\tpartial void M(string a)",
      "        => global::System.Console.WriteLine($\"Hello, \x7ba\x7d!\");", "\x7d"]

/-- The comment, the line break and the tab stand in the fragment as they do in the file. -/
theorem fragment_verbatim_spacedFile :
    let c : Compilation := ⟨[Tree.ofConcrete ⟨0⟩ spacedText spacedFile]⟩
    spacedFile.Fits spacedText ∧ ∃ r ∈ c.records,
      r.node.tree = Tree.ofConcrete ⟨0⟩ spacedText spacedFile ∧
      (r.fragment "C.cs").toOption.map (·.sourceText) = some spacedFragment ∧
      ∃ method first last written,
        r.CompletedAsWritten spacedText spacedFile "C.cs" method first last written := by
  intro c
  have hfits : spacedFile.Fits spacedText := by decide +kernel
  have hrecord : ∃ r ∈ c.records,
      (r.fragment "C.cs").toOption.map (·.sourceText) = some spacedFragment := by
    decide +kernel
  obtain ⟨r, hr, htext⟩ := hrecord
  have htree := List.mem_singleton.mp (tree_mem_of_mem_records hr)
  exact ⟨hfits, r, hr, htree, htext, fragment_verbatim hfits c hr htree "C.cs"⟩

end Compilation

end StubGen

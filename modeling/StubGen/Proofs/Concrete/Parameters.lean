import StubGen.Proofs.Record.Selection
import StubGen.Proofs.Tree.Lowering

/-!
# The parameters of a method

A parameter list holds entries with commas between them. The grammar gives an ordinary entry
a node of its own, but it has the keyword, the type and the name of a `params` array stand in
the list one by one. A parameter of a method is a node of its list whose kind speaks of a
parameter, so exactly the arrays are passed over. A method with an array beside a single
string is therefore taken for one with a single string.

Only the nodes of the list itself matter. Nothing is assumed about what is below them.
-/

namespace StubGen.Concrete

/-- An entry of a parameter list. -/
inductive ParameterEntry where
  /-- A parameter with a node of its own. -/
  | parameter (node : Concrete)
  /-- A `params` array, of which each part is a node of the list. -/
  | paramsArray (keyword type name : Concrete)

namespace ParameterEntry

/-- The nodes of the list that make up an entry. -/
def nodes : ParameterEntry → List Concrete
  | parameter node => [node]
  | paramsArray keyword type name => [keyword, type, name]

/-- Whether the entry has a node of its own. -/
def hasNode : ParameterEntry → Bool
  | parameter _ => true
  | paramsArray _ _ _ => false

/-- What the grammar has as an entry. No kind of a type or of a name speaks of a parameter. -/
inductive WellFormed : ParameterEntry → Prop
  | parameter {node : Concrete} (hkind : node.node.isNamed "parameter" = true) :
      WellFormed (.parameter node)
  | paramsArray {keyword type name : Concrete} (hkeyword : keyword.node.isKeyword "params" = true)
      (htype : type.node.fills "type" = true)
      (htypeKind : Text.occursIn "parameter".toList type.node.kind.toList = false)
      (hname : name.node.fills "name" = true) (hnameKind : name.node.isNamed "identifier" = true) :
      WellFormed (.paramsArray keyword type name)

end ParameterEntry

/-- Entries with commas between them. -/
inductive Separated : List Concrete → List ParameterEntry → Prop
  | last {e : ParameterEntry} (he : e.WellFormed) : Separated e.nodes [e]
  | cons {e : ParameterEntry} {comma : Concrete} {rest : List Concrete}
      {entries : List ParameterEntry} (he : e.WellFormed)
      (hcomma : comma.node.isKeyword "," = true) (hrest : Separated rest entries) :
      Separated (e.nodes ++ comma :: rest) (e :: entries)

/-- A parameter list with the given entries. Comments may stand anywhere in it. -/
inductive IsParameterList (list : Concrete) : List ParameterEntry → Prop
  | empty {opening closing : Concrete}
      (hnodes : list.children.filter (!·.node.isNamed "comment") = [opening, closing])
      (hopening : opening.node.isKeyword "(" = true)
      (hclosing : closing.node.isKeyword ")" = true) : IsParameterList list []
  | entries {opening closing : Concrete} {inner : List Concrete} {entries : List ParameterEntry}
      (hnodes : list.children.filter (!·.node.isNamed "comment") = opening :: inner ++ [closing])
      (hopening : opening.node.isKeyword "(" = true)
      (hclosing : closing.node.isKeyword ")" = true) (hinner : Separated inner entries) :
      IsParameterList list entries

/-- The parameter list of a method. -/
def parameterList? (c : Concrete) : Option Concrete :=
  (c.field? "parameters").or (c.namedChild? "parameter_list")

/-- Whether a node of a parameter list is read as a parameter. -/
def readsAsParameter (c : Concrete) : Bool :=
  c.node.named && Text.occursIn "parameter".toList c.node.kind.toList

variable {c d list : Concrete} {source : String} {entries : List ParameterEntry}

/-- The parameters of a method are the nodes of its list that are read as one. -/
theorem parameters_eq (h : c.parameterList? = some list) :
    c.parameters source =
      (list.children.filter (·.readsAsParameter)).map (·.parameter source) := by
  unfold parameterList? at h
  unfold parameters readsAsParameter
  simp only [h, namedChildren, List.filter_filter, Bool.and_comm]

/-- A method has as many parameters as nodes of its list are read as one. -/
theorem length_parameters (h : c.parameterList? = some list) :
    (c.parameters source).length = list.children.countP (·.readsAsParameter) := by
  rw [parameters_eq h, List.length_map, List.countP_eq_length_filter]

/-- Fixed texts are not read as parameters. -/
theorem readsAsParameter_of_isKeyword {keyword : String}
    (h : c.node.isKeyword keyword = true) : c.readsAsParameter = false := by
  have hnamed : c.node.named = false := by
    simpa using (Bool.and_eq_true_iff.mp h).1
  rw [readsAsParameter, hnamed, Bool.false_and]

/-- A named node is read as a parameter if its kind speaks of one. -/
theorem readsAsParameter_of_isNamed {kind : String} (h : c.node.isNamed kind = true) :
    c.readsAsParameter = Text.occursIn "parameter".toList kind.toList := by
  obtain ⟨hnamed, hkind⟩ := Bool.and_eq_true_iff.mp h
  rw [readsAsParameter, hnamed, beq_iff_eq.mp hkind, Bool.true_and]

/-- A parameter is read as one. -/
theorem readsAsParameter_of_parameter (h : c.node.isNamed "parameter" = true) :
    c.readsAsParameter = true := by
  rw [readsAsParameter_of_isNamed h]
  decide

/-- Comments and identifiers are not read as parameters. -/
theorem not_readsAsParameter {kind : String} (hkind : kind ∈ ["comment", "identifier"])
    (h : c.node.isNamed kind = true) : c.readsAsParameter = false := by
  have hsilent : ∀ other ∈ ["comment", "identifier"],
      Text.occursIn "parameter".toList other.toList = false := by decide
  rw [readsAsParameter_of_isNamed h, hsilent kind hkind]

/-- Of an entry one node is read as a parameter, if it has a node of its own, or else none. -/
theorem ParameterEntry.WellFormed.countP_nodes {e : ParameterEntry} (h : e.WellFormed) :
    e.nodes.countP (·.readsAsParameter) = [e].countP (·.hasNode) := by
  cases h with
  | parameter hkind => simp [nodes, hasNode, readsAsParameter_of_parameter hkind]
  | paramsArray hkeyword _ htypeKind _ hnameKind =>
    have hkeywordReads := readsAsParameter_of_isKeyword hkeyword
    have hnameReads := not_readsAsParameter (by simp) hnameKind
    have htypeReads : ∀ type : Concrete,
        Text.occursIn "parameter".toList type.node.kind.toList = false →
          type.readsAsParameter = false := fun type h => by rw [readsAsParameter, h, Bool.and_false]
    simp [nodes, hasNode, hkeywordReads, hnameReads, htypeReads _ htypeKind]

/-- Of a sequence of entries as many nodes are read as parameters as entries have a node of
their own. -/
theorem Separated.countP_eq {inner : List Concrete} (h : Separated inner entries) :
    inner.countP (·.readsAsParameter) = entries.countP (·.hasNode) := by
  induction h with
  | last he => exact he.countP_nodes
  | cons he hcomma _ ih =>
    rw [List.countP_append, List.countP_cons_of_neg (by simp [readsAsParameter_of_isKeyword hcomma]),
      he.countP_nodes, ih, ← List.countP_append, List.singleton_append]

/-- Of a parameter list as many nodes are read as parameters as entries have a node of their
own. -/
theorem IsParameterList.countP_eq (h : list.IsParameterList entries) :
    list.children.countP (·.readsAsParameter) = entries.countP (·.hasNode) := by
  -- Comments are not read as parameters, so they can be left out of the count.
  have hcomments : list.children.countP (·.readsAsParameter) =
      (list.children.filter (!·.node.isNamed "comment")).countP (·.readsAsParameter) := by
    rw [List.countP_filter]
    apply List.countP_congr
    intro node _
    cases hcomment : node.node.isNamed "comment" with
    | false => simp
    | true => simp [not_readsAsParameter (by simp) hcomment]
  rw [hcomments]
  cases h with
  | empty hnodes hopening hclosing =>
    simp [hnodes, readsAsParameter_of_isKeyword hopening, readsAsParameter_of_isKeyword hclosing]
  | entries hnodes hopening hclosing hinner =>
    simp [hnodes, List.countP_append, readsAsParameter_of_isKeyword hopening,
      readsAsParameter_of_isKeyword hclosing, hinner.countP_eq]

/-- A method declaration of a file is lowered with one parameter for each entry of its list
that has a node of its own, so with one for each entry exactly if there is no `params` array
among them. If the method gets a record, exactly one entry has a node of its own, and it is
the only entry exactly if there is no array. -/
theorem parameters_count_entries (file : FileId) {position : List Nat} (hd : c.Keeps position d)
    (hmethod : d.node.IsMethod) (hlist : d.parameterList? = some list)
    (hentries : list.IsParameterList entries) :
    (d.methodDeclaration source).parameters.length = entries.countP (·.hasNode) ∧
      ((d.methodDeclaration source).parameters.length = entries.length ↔
        ∀ e ∈ entries, e.hasNode = true) ∧
      (∃ i, (Tree.ofConcrete file source c).declaration i = d.methodDeclaration source) ∧
      ∀ i, (Tree.ofConcrete file source c).declaration i = d.methodDeclaration source →
        ∀ compilation : Compilation, ∀ r ∈ compilation.records,
          r.node = ⟨Tree.ofConcrete file source c, i⟩ →
            entries.countP (·.hasNode) = 1 ∧
              (entries.length = 1 ↔ ∀ e ∈ entries, e.hasNode = true) := by
  have hlength : (d.methodDeclaration source).parameters.length = entries.countP (·.hasNode) :=
    (length_parameters hlist).trans hentries.countP_eq
  have hdeclared : d.declared? source = some (d.methodDeclaration source) := by
    rw [declared?, ConcreteNode.role_of_isMethod hd.1.named hmethod]
  refine ⟨hlength, ?_, Tree.exists_declaration_of_keeps hd hdeclared, ?_⟩
  · rw [hlength, List.countP_eq_length]
  · intro i hi compilation r hr hnode
    obtain ⟨hcompletable, -⟩ := Compilation.isRecordOf_of_mem_records hr
    have hone := hcompletable.oneParameter
    rw [hnode] at hone
    have hcount : entries.countP (·.hasNode) = 1 := by
      rw [← hlength, ← hi]
      exact hone
    refine ⟨hcount, ?_⟩
    rw [← hcount, eq_comm, List.countP_eq_length]

/-- A file with an annotated method that takes a string and an array. -/
def arrayText : String :=
  "namespace SourceGeneratorSample.Greetings;\n" ++
    "partial class C \x7b [SayHello2] static partial void M(string a, params string[] b); \x7d"

/-- The entries of the parameter list of the method. -/
def arrayEntries : List ParameterEntry :=
  [.parameter (branch "parameter" 95 103
      [leaf "predefined_type" true 95 101 "type", leaf "identifier" true 102 103 "name"]),
    .paramsArray (leaf "params" false 105 111)
      (branch "array_type" 112 120 [leaf "predefined_type" true 112 118 "type",
        branch "array_rank_specifier" 118 120 [leaf "[" false 118 119, leaf "]" false 119 120]
          "rank"] "type")
      (leaf "identifier" true 121 122 "name")]

/-- The parameter list of the method. -/
def arrayList : Concrete :=
  branch "parameter_list" 94 123
    (leaf "(" false 94 95 ::
      ((arrayEntries.map (·.nodes)).intersperse [leaf "," false 103 104]).flatten ++
      [leaf ")" false 122 123]) "parameters"

/-- The method of the file. -/
def arrayMethod : Concrete :=
  branch "method_declaration" 61 124
    [branch "attribute_list" 61 72
      [leaf "[" false 61 62, branch "attribute" 62 71 [leaf "identifier" true 62 71 "name"],
        leaf "]" false 71 72],
      branch "modifier" 73 79 [leaf "static" false 73 79],
      branch "modifier" 80 87 [leaf "partial" false 80 87],
      leaf "predefined_type" true 88 92 "returns", leaf "identifier" true 93 94 "name", arrayList,
      leaf ";" false 123 124]

/-- The body of the class of the file. -/
def arrayBody : Concrete :=
  branch "declaration_list" 59 126 [leaf "\x7b" false 59 60, arrayMethod, leaf "\x7d" false 125 126] "body"

/-- The class of the file. -/
def arrayClass : Concrete :=
  branch "class_declaration" 43 126
    [branch "modifier" 43 50 [leaf "partial" false 43 50], leaf "class" false 51 56,
      leaf "identifier" true 57 58 "name", arrayBody]

/-- The concrete tree of the file. -/
def arrayFile : Concrete :=
  branch "compilation_unit" 0 126
    [branch "file_scoped_namespace_declaration" 0 42
      [leaf "namespace" false 0 9,
        branch "qualified_name" 10 41
          [leaf "identifier" true 10 31 "qualifier", leaf "." false 31 32,
            leaf "identifier" true 32 41 "name"] "name",
        leaf ";" false 41 42],
      arrayClass]

/-- The list holds its entries, one of them an array. -/
theorem isParameterList_arrayList : arrayList.IsParameterList arrayEntries := by
  have hopening : (leaf "(" false 94 95).node.isKeyword "(" = true := by decide
  have hclosing : (leaf ")" false 122 123).node.isKeyword ")" = true := by decide
  have hcomma : (leaf "," false 103 104).node.isKeyword "," = true := by decide
  exact .entries (by rw [arrayList, children_branch]; decide) hopening hclosing
    (.cons (.parameter (by decide)) hcomma
      (.last (.paramsArray (by decide) (by decide) (by decide) (by decide) (by decide))))

/-- The method is a member of the class, which is one of the file. -/
theorem keeps_arrayMethod : ∃ position, arrayFile.Keeps position arrayMethod := by
  have hopened : arrayClass.opened? = some arrayBody := by decide +kernel
  obtain ⟨via, hvia⟩ := opens_unique hopened
  have hbody : arrayClass.Opens via arrayBody := (hvia via arrayBody).mpr ⟨rfl, rfl⟩
  have hmember : arrayFile.HasMember (1 :: (via ++ [1])) arrayMethod :=
    .inside (by rw [arrayFile, children_branch]; rfl) rfl hbody
      (.child (by rw [arrayBody, children_branch]; rfl) rfl)
  exact ⟨_, hmember, .inr (.inr (.inl rfl))⟩

/-- Of the two entries of the list only one becomes a parameter. -/
theorem parameters_count_entries_arrayMethod :
    (∃ position, arrayFile.Keeps position arrayMethod) ∧ arrayMethod.node.IsMethod ∧
      arrayMethod.parameterList? = some arrayList ∧ arrayList.IsParameterList arrayEntries ∧
      arrayEntries.length = 2 ∧
      (arrayMethod.methodDeclaration arrayText).parameters.length = 1 := by
  obtain ⟨position, hkeeps⟩ := keeps_arrayMethod
  have hlist : arrayMethod.parameterList? = some arrayList := by decide +kernel
  have hlength : (arrayMethod.methodDeclaration arrayText).parameters.length = 1 :=
    (parameters_count_entries ⟨0⟩ hkeeps rfl hlist isParameterList_arrayList).1
  exact ⟨⟨position, hkeeps⟩, rfl, hlist, isParameterList_arrayList, rfl, hlength⟩

/-- The method gets a record, although its list has two entries. -/
theorem record_of_arrayMethod :
    arrayMethod.parameterList? = some arrayList ∧ arrayList.IsParameterList arrayEntries ∧
      arrayEntries.length = 2 ∧
      ∃ r ∈ Compilation.records ⟨[Tree.ofConcrete ⟨0⟩ arrayText arrayFile]⟩,
        r.node.declaration = arrayMethod.methodDeclaration arrayText := by
  exact ⟨by decide +kernel, isParameterList_arrayList, rfl, by decide +kernel⟩

end StubGen.Concrete

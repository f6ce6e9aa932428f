import StubGen.Proofs.Concrete.Members
import StubGen.Proofs.Text.Dotted

/-!
# Texts without blanks

Every text that a declaration takes over from the source is freed of its blanks, and a type that is
read from such a text is a keyword exactly if the text is one. So no text of a declaration holds
a blank, and a keyword never shows up as the name of a type. The concrete tree may be any.

The source text between the modifiers is not one of these texts: it is kept as written.
-/

namespace StubGen

/-- A text without blanks. -/
def Text.Unspaced (s : String) : Prop := ∀ c ∈ s.toList, isBlank c = false

-- Over the list of the characters: there may also be an instance over all characters there are.
instance (s : String) : Decidable (Text.Unspaced s) := List.decidableBAll _ s.toList

namespace Text

/-- Nothing blank is left in a compact text. -/
theorem unspaced_compact (s : String) : Unspaced (compact s) :=
  fun _ => not_isBlank_of_mem_compact

/-- The end of a text without blanks has none either. -/
theorem Unspaced.getD_afterStart? {s : String} (h : Unspaced s) (start : String) :
    Unspaced ((afterStart? start s).getD s) := by
  cases hafter : afterStart? start s with
  | none => exact h
  | some rest =>
    intro c hc
    apply h
    rw [← afterStart?_eq_some.mp hafter, String.toList_append]
    exact List.mem_append_right _ hc

end Text

namespace TypeSyntax

/-- A type that is either a keyword or named by a text that is none. -/
def NotNamedByKeyword (type : TypeSyntax) : Prop :=
  ∀ text, type = .named text → ∀ k : KeywordType, k.keyword ≠ text

/-- Keywords have no blanks. -/
theorem unspaced_keyword (k : KeywordType) : Text.Unspaced k.keyword := by
  cases k <;> decide

/-- A type that is read is shown without blanks. -/
theorem unspaced_display_parse (text : String) : Text.Unspaced (parse text).display := by
  unfold parse
  cases KeywordType.ofKeyword? (Text.compact text) with
  | none => exact Text.unspaced_compact text
  | some k => exact unspaced_keyword k

/-- A type that is read is not named by a keyword. -/
theorem notNamedByKeyword_parse (text : String) : (parse text).NotNamedByKeyword := by
  intro name hname k hk
  unfold parse at hname
  split at hname
  · cases hname
  · rename_i hnone
    obtain rfl := named.inj hname
    have hall : k ∈ KeywordType.all := by cases k <;> decide
    exact List.find?_eq_none.mp hnone k hall (beq_iff_eq.mpr hk)

end TypeSyntax

namespace Declaration

variable {d : Declaration}

/-- The names, modifier tokens and displayed types of a declaration. -/
def texts (d : Declaration) : List String :=
  d.name :: d.modifiers.tokens ++ d.attributes.map (·.name) ++ d.typeParameters ++
    d.parameters.flatMap (fun p => p.name :: p.modifiers.tokens) ++ d.types.map (·.display)

/-- What holds of all texts of a declaration, part by part. -/
theorem forall_mem_texts {holds : String → Prop} :
    (∀ text ∈ d.texts, holds text) ↔
      holds d.name ∧ (∀ token ∈ d.modifiers.tokens, holds token) ∧
        (∀ a ∈ d.attributes, holds a.name) ∧ (∀ name ∈ d.typeParameters, holds name) ∧
        (∀ p ∈ d.parameters, ∀ text ∈ p.name :: p.modifiers.tokens, holds text) ∧
        ∀ type ∈ d.types, holds type.display := by
  simp only [texts, List.cons_append, List.forall_mem_cons, List.forall_mem_append,
    List.forall_mem_map, List.forall_mem_flatMap, and_assoc]

/-- A compilation unit has no texts but its empty name. -/
theorem unspaced_compilationUnit (span : Span) :
    ∀ text ∈ ({ kind := .compilationUnit, span } : Declaration).texts, Text.Unspaced text := by
  intro text htext
  rw [List.mem_singleton.mp htext]
  exact fun _ hc => absurd hc List.not_mem_nil

/-- A using directive has no texts but its target and its modifier. -/
theorem unspaced_ofUsing {target : String} (h : Text.Unspaced target) (isGlobal : Bool)
    (span : Span) : ∀ text ∈ (ofUsing target isGlobal span).texts, Text.Unspaced text := by
  have htokens : ∀ token ∈ (ofUsing target isGlobal span).modifiers.tokens,
      Text.Unspaced token := by
    cases isGlobal with
    | false => exact List.forall_mem_nil _
    | true => exact List.forall_mem_singleton.mpr (by decide)
  exact forall_mem_texts.mpr ⟨h, htokens, List.forall_mem_nil _, List.forall_mem_nil _,
    List.forall_mem_nil _, List.forall_mem_nil _⟩

end Declaration

namespace Concrete

variable {c : Concrete} {d : Declaration} {source : String}

/-- The text of a node that may be absent has no blanks. -/
theorem unspaced_getD_compactText (source : String) (found : Option Concrete) :
    Text.Unspaced ((found.map (·.node.compactText source)).getD "") := by
  cases found with
  | none => exact fun _ hc => absurd hc List.not_mem_nil
  | some d => exact Text.unspaced_compact _

/-- The text of a field has no blanks. -/
theorem unspaced_fieldText (source : String) (c : Concrete) (field : String) :
    Text.Unspaced (c.fieldText source field) :=
  unspaced_getD_compactText source _

/-- The tokens of modifiers have no blanks. -/
theorem unspaced_modifiers (c : Concrete) :
    ∀ token ∈ (c.modifiers source).tokens, Text.Unspaced token := by
  intro token htoken
  obtain ⟨node, -, rfl⟩ := List.mem_map.mp htoken
  exact Text.unspaced_compact _

/-- The names of attributes have no blanks. -/
theorem unspaced_attributes (c : Concrete) :
    ∀ a ∈ c.attributes source, Text.Unspaced a.name := by
  intro a ha
  obtain ⟨list, -, ha⟩ := List.mem_flatMap.mp ha
  obtain ⟨applied, -, rfl⟩ := List.mem_map.mp ha
  exact unspaced_getD_compactText source _

/-- The names of type parameters have no blanks. -/
theorem unspaced_typeParameters (c : Concrete) :
    ∀ name ∈ c.typeParameters source, Text.Unspaced name := by
  intro name hname
  unfold typeParameters at hname
  split at hname
  · exact absurd hname List.not_mem_nil
  · obtain ⟨parameter, -, rfl⟩ := List.mem_map.mp hname
    split <;> exact Text.unspaced_compact _

/-- The name and the modifiers of a parameter have no blanks. -/
theorem unspaced_parameter (c : Concrete) :
    ∀ text ∈ (c.parameter source).name :: (c.parameter source).modifiers.tokens,
      Text.Unspaced text := by
  rw [List.forall_mem_cons]
  refine ⟨unspaced_fieldText source c "name", fun token htoken => ?_⟩
  unfold parameter at htoken
  dsimp only at htoken
  split at htoken
  · rcases List.mem_append.mp htoken with hwritten | hparams
    · exact unspaced_modifiers c token hwritten
    · rw [List.mem_singleton.mp hparams]
      decide
  · exact unspaced_modifiers c token htoken

/-- Every parameter of a method is read from a node. -/
theorem exists_of_mem_parameters {p : Declaration.Parameter} (h : p ∈ c.parameters source) :
    ∃ d : Concrete, p = d.parameter source := by
  unfold parameters at h
  split at h
  · exact absurd h List.not_mem_nil
  · obtain ⟨d, -, rfl⟩ := List.mem_map.mp h
    exact ⟨d, rfl⟩

/-- The type of a field is read from a text. -/
theorem exists_parse_of_fieldType? {type : TypeSyntax} {field : String}
    (h : c.fieldType? source field = some type) : ∃ text, type = TypeSyntax.parse text := by
  obtain ⟨written, -, rfl⟩ := Option.map_eq_some_iff.mp h
  exact ⟨_, rfl⟩

/-- What the declaration of a node can be. -/
inductive DeclaredAs (source : String) (c : Concrete) : Declaration → Prop
  | ofNamespace (hkind : c.node.IsNamespace) : DeclaredAs source c (c.namespaceDeclaration source)
  | ofType (hkind : c.node.IsType) : DeclaredAs source c (c.typeDeclaration source)
  | ofMethod (hkind : c.node.IsMethod) : DeclaredAs source c (c.methodDeclaration source)
  | ofUsing {target : Concrete} (hkind : c.node.IsUsing) :
      DeclaredAs source c (Declaration.ofUsing
        ((Text.afterStart? "global::" (target.node.compactText source)).getD
          (target.node.compactText source)) (c.hasKeyword "global") c.node.span)
  | ofOther (hkind : c.node.IsOtherDeclaration) : DeclaredAs source c (c.otherDeclaration source)

/-- A declaration goes by the kind of its node. -/
theorem declaredAs_of_declared? (h : c.declared? source = some d) : c.DeclaredAs source d := by
  have hroleOf := c.node.roleOf_role
  unfold declared? at h
  generalize c.node.role = role at hroleOf h
  cases hroleOf with
  | fileScopedNamespace _ hkind =>
    obtain rfl := Option.some.inj h
    exact .ofNamespace (Or.inr hkind)
  | namespaceBlock _ hkind =>
    obtain rfl := Option.some.inj h
    exact .ofNamespace (Or.inl hkind)
  | typeDeclaration _ hkind =>
    obtain rfl := Option.some.inj h
    exact .ofType hkind
  | methodDeclaration _ hkind =>
    obtain rfl := Option.some.inj h
    exact .ofMethod hkind
  | usingDirective _ hkind =>
    obtain ⟨target, -, rfl⟩ := exists_target_of_usingDeclaration? h
    exact .ofUsing hkind
  | otherDeclaration _ hkind =>
    obtain rfl := Option.some.inj h
    exact .ofOther hkind
  | preprocessor | unnamed | ignored => cases h

/-- No node declares a compilation unit. -/
theorem DeclaredAs.kind_ne_compilationUnit (h : c.DeclaredAs source d) :
    d.kind ≠ .compilationUnit := by
  cases h <;> nofun

/-- The types of a declaration are read from texts. -/
theorem DeclaredAs.exists_parse (h : c.DeclaredAs source d) {type : TypeSyntax}
    (htype : type ∈ d.types) : ∃ text, type = TypeSyntax.parse text := by
  cases h with
  | ofMethod =>
    rcases List.mem_append.mp htype with hreturns | hparameters
    · rcases Option.or_eq_some_iff.mp (Option.mem_toList.mp hreturns) with hreturns | ⟨-, htype⟩
      · exact exists_parse_of_fieldType? hreturns
      · exact exists_parse_of_fieldType? htype
    · obtain ⟨p, hp, htype⟩ := List.mem_filterMap.mp hparameters
      obtain ⟨d, rfl⟩ := exists_of_mem_parameters hp
      exact exists_parse_of_fieldType? htype
  | ofNamespace | ofType | ofUsing | ofOther => exact absurd htype List.not_mem_nil

/-- No text of a declaration holds a blank. -/
theorem DeclaredAs.unspaced (h : c.DeclaredAs source d) :
    ∀ text ∈ d.texts, Text.Unspaced text := by
  have htypes : ∀ type ∈ d.types, Text.Unspaced type.display := by
    intro type htype
    obtain ⟨text, rfl⟩ := h.exists_parse htype
    exact TypeSyntax.unspaced_display_parse text
  have hname := unspaced_fieldText source c "name"
  cases h with
  | ofNamespace =>
    exact Declaration.forall_mem_texts.mpr ⟨hname, List.forall_mem_nil _, List.forall_mem_nil _,
      List.forall_mem_nil _, List.forall_mem_nil _, htypes⟩
  | ofType =>
    exact Declaration.forall_mem_texts.mpr ⟨hname, c.unspaced_modifiers, c.unspaced_attributes,
      c.unspaced_typeParameters, List.forall_mem_nil _, htypes⟩
  | ofMethod =>
    refine Declaration.forall_mem_texts.mpr ⟨hname, c.unspaced_modifiers, c.unspaced_attributes,
      c.unspaced_typeParameters, fun p hp => ?_, htypes⟩
    obtain ⟨d, rfl⟩ := exists_of_mem_parameters hp
    exact d.unspaced_parameter
  | @ofUsing target =>
    have hwritten : Text.Unspaced (target.node.compactText source) := Text.unspaced_compact _
    exact Declaration.unspaced_ofUsing (hwritten.getD_afterStart? "global::") _ _
  | ofOther =>
    exact Declaration.forall_mem_texts.mpr ⟨hname, c.unspaced_modifiers, List.forall_mem_nil _,
      List.forall_mem_nil _, List.forall_mem_nil _, htypes⟩

end Concrete

end StubGen

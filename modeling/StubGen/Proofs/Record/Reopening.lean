import StubGen.Proofs.Model.Scopes
import StubGen.Proofs.Namespace.RootMark
import StubGen.Proofs.Record.Selection

/-!
# The type that a fragment reopens

A member of a type is declared in a place: in a namespace, under the headings of the types
around its type and of the type itself. The fragment of a record declares the method in the
namespace of the type that holds it, under a single heading of the keyword of the type's kind
and its simple name. Of a record type, of type parameters and of the types around the type
nothing is written, so this is the place of the declaration only for a class, struct or
interface that is not generic and not nested.

Names are any texts. Whether a fragment compiles is not part of this.
-/

namespace StubGen

/-- The heading of a part of a type. -/
structure Heading where
  keyword : String
  name : String
  typeParameters : List String := []
deriving DecidableEq, Repr

namespace Heading

/-- The type parameters as they follow the name. -/
def parameterList (h : Heading) : String :=
  if h.typeParameters = [] then "" else "<" ++ Text.joined ", " h.typeParameters ++ ">"

/-- The heading as a line of a file. -/
def line (h : Heading) : String :=
  "partial " ++ h.keyword ++ " " ++ h.name ++ h.parameterList

end Heading

/-- Where members are declared. -/
@[ext] structure TypePlace where
  inNamespace : Namespace
  /-- The headings, from the outermost type to the one that holds the members. -/
  headings : List Heading
deriving DecidableEq, Repr

namespace TypePlace

/-- Lines under headings. Each type has a body of its own, one step further in. -/
def nested (lines : List String) : List Heading → List String
  | [] => lines
  | h :: inner =>
    [h.line, "\x7b"] ++ (nested lines inner).map (Template.indent ++ ·) ++ ["\x7d"]

/-- The generated file that declares members in a place. -/
def text (place : TypePlace) (members : List String) : String :=
  Text.joined "\n" (["// <auto-generated/>", "", "#nullable enable"] ++
    (if place.inNamespace.segments = [] then []
      else ["namespace " ++ Text.joined "." place.inNamespace.segments ++ ";"]) ++
    [""] ++ nested members place.headings)

end TypePlace

namespace TypeForm

/-- The keyword of the kind of type that is declared: records are classes or structs. -/
def kindKeyword : TypeForm → String
  | classType | recordType => "class"
  | structType | recordStructType => "struct"
  | interfaceType => "interface"
  | enumType => "enum"

end TypeForm

/-- The heading of a type declaration. -/
def Declaration.heading? (d : Declaration) : Option Heading :=
  d.kind.typeForm?.map fun form =>
    { keyword := form.keyword, name := d.name, typeParameters := d.typeParameters }

/-- The types directly around a node, innermost first. -/
def NodeRef.typesAround (n : NodeRef) : List NodeRef :=
  n.ancestors.takeWhile (·.declaration.kind.isType)

namespace TypeForm

variable {form : TypeForm}

/-- A type that is no enum is reopened by the keyword of its kind. -/
theorem partialKeyword_ofForm (h : form ≠ .enumType) (typeName : String) :
    (TypeKind.ofForm form).partialKeyword typeName = .ok form.kindKeyword := by
  cases form with
  | enumType => exact absurd rfl h
  | _ => rfl

/-- The keyword of the kind is the keyword of the form, unless a record is declared. -/
theorem kindKeyword_eq_keyword_iff :
    form.kindKeyword = form.keyword ↔ form ≠ .recordType ∧ form ≠ .recordStructType := by
  cases form <;> decide

end TypeForm

namespace Namespace

/-- A namespace is written into a fragment as its dotted name. -/
theorem emitted_eq (n : Namespace) : n.emitted = Text.joined "." n.segments :=
  withoutRootMark_rootMark_append n.minimalDisplay

end Namespace

namespace Record

/-- The declaration of a record's method with its body, as it stands below the heading. -/
def memberLines (r : Record) : List String :=
  [r.modifiers.text ++ " void " ++ r.memberName ++ "(string " ++ r.parameterName ++ ")",
    Template.indent ++ "=> global::System.Console.WriteLine($\"Hello, \x7b" ++
      r.parameterName ++ "\x7d!\");"]

/-- The text of a record's fragment declares its method in the record's namespace, under a
single heading of the given keyword and the record's type name. -/
theorem render_template (r : Record) (typeKeyword : String) (h : r.inNamespace.Proper) :
    (r.template typeKeyword).render =
      TypePlace.text
        { inNamespace := r.inNamespace
          headings := [{ keyword := typeKeyword, name := r.typeName }] } r.memberLines := by
  have hglobal : Text.joined "." r.inNamespace.segments = "" ↔ r.inNamespace.segments = [] :=
    Text.joined_eq_empty_iff h
  simp only [Template.render, Template.lines, Template.methodLine, Template.bodyLine, template,
    TypePlace.text, TypePlace.nested, memberLines, Heading.line, Heading.parameterList,
    Namespace.emitted_eq, hglobal, List.map_cons, List.map_nil, List.append_assoc,
    String.append_assoc, List.cons_append, List.nil_append, if_true, String.append_empty]

end Record

namespace NodeRef

/-- There is no heading around a node exactly if its parent is no type. -/
theorem filterMap_heading?_typesAround {n : NodeRef} :
    n.typesAround.filterMap (·.declaration.heading?) = [] ↔
      ∀ p ∈ n.parent, p.declaration.kind.isType = false := by
  unfold typesAround ancestors parent
  cases hparent : n.tree.parent n.id with
  | none => simp [Tree.ancestors_of_parent_none hparent]
  | some q =>
    rw [Tree.ancestors_of_parent hparent, List.map_cons, Option.map_some]
    simp only [Option.mem_def, Option.some.injEq, forall_eq']
    cases htype : (declaration ⟨n.tree, q⟩).kind.isType with
    | false => simp [htype]
    | true =>
      obtain ⟨form, hform⟩ := Option.isSome_iff_exists.mp htype
      simp [htype, Declaration.heading?, hform]

end NodeRef

namespace Compilation

/-- The place in which the type at a node declares its members. -/
def placeOf (c : Compilation) (n : NodeRef) : TypePlace where
  inNamespace := (c.model n.tree).enclosingNamespace n.id
  headings := ((n :: n.typesAround).filterMap (·.declaration.heading?)).reverse

/-- The place by which a type at a node is reopened: its namespace, and only its own heading
with the keyword of its kind and its simple name. -/
def reopenedPlace (c : Compilation) (n : NodeRef) (form : TypeForm) : TypePlace where
  inNamespace := (c.model n.tree).enclosingNamespace n.id
  headings := [{ keyword := form.kindKeyword, name := n.declaration.name }]

/-- A type is reopened in the place of its declaration exactly if it is no record, not
generic and not nested. -/
theorem reopenedPlace_eq_placeOf_iff {c : Compilation} {n : NodeRef} {form : TypeForm}
    (hform : n.declaration.kind.typeForm? = some form) :
    c.reopenedPlace n form = c.placeOf n ↔
      form ≠ .recordType ∧ form ≠ .recordStructType ∧ n.declaration.typeParameters = [] ∧
        ∀ p ∈ n.parent, p.declaration.kind.isType = false := by
  let own : Heading :=
    { keyword := form.keyword, name := n.declaration.name
      typeParameters := n.declaration.typeParameters }
  let short : Heading := { keyword := form.kindKeyword, name := n.declaration.name }
  have hown : n.declaration.heading? = some own := by
    rw [Declaration.heading?, hform, Option.map_some]
  -- The type's own heading is the last one, so the lists are compared from their ends.
  have hheadings : (c.placeOf n).headings =
      (own :: n.typesAround.filterMap (·.declaration.heading?)).reverse := by
    simp only [placeOf, List.filterMap_cons, hown]
  have hsame : own = short ↔
      (form ≠ .recordType ∧ form ≠ .recordStructType) ∧ n.declaration.typeParameters = [] := by
    rw [Heading.mk.injEq, eq_comm, TypeForm.kindKeyword_eq_keyword_iff]
    exact and_congr_right fun _ => and_iff_right rfl
  calc c.reopenedPlace n form = c.placeOf n
      ↔ [short] = (c.placeOf n).headings :=
        ⟨congrArg TypePlace.headings, fun h => TypePlace.ext rfl h⟩
    _ ↔ own :: n.typesAround.filterMap (·.declaration.heading?) = [short] := by
        rw [hheadings, eq_comm, List.reverse_eq_iff, List.reverse_singleton]
    _ ↔ own = short ∧ n.typesAround.filterMap (·.declaration.heading?) = [] := by
        rw [List.cons.injEq]
    _ ↔ form ≠ .recordType ∧ form ≠ .recordStructType ∧ n.declaration.typeParameters = [] ∧
          ∀ p ∈ n.parent, p.declaration.kind.isType = false := by
        rw [hsame, NodeRef.filterMap_heading?_typesAround, and_assoc, and_assoc]

/-- The fragment of a record declares its method in the namespace of the type that holds it,
under the keyword of the kind of the type and its simple name, without type parameters and
without the types around it. This is the place of the declaration exactly if the type is a
class, struct or interface that is not generic and not nested. -/
theorem fragment_reopens (c : Compilation) {r : Record} (hr : r ∈ c.records)
    (hintName : String) :
    ∃ p ∈ r.node.parent, ∃ form ∈ p.declaration.kind.typeForm?, form ≠ .enumType ∧
      r.fragment hintName =
        .ok { hintName := hintName, sourceText := (c.reopenedPlace p form).text r.memberLines } ∧
      (c.reopenedPlace p form = c.placeOf p ↔
        form ≠ .recordType ∧ form ≠ .recordStructType ∧ p.declaration.typeParameters = [] ∧
          ∀ q ∈ p.parent, q.declaration.kind.isType = false) := by
  obtain ⟨p, hp, form, hform, henum, hname, hkind, hnamespace⟩ := exists_type_of_mem_records hr
  have hproper : r.inNamespace.Proper := by
    rw [hnamespace]
    exact Model.enclosingNamespace_proper (m := c.model p.tree) p.id
  refine ⟨p, hp, form, hform, henum, ?_, reopenedPlace_eq_placeOf_iff hform⟩
  rw [Record.fragment, hkind, TypeForm.partialKeyword_ofForm henum]
  simp only [Except.map, Record.render_template r _ hproper]
  rw [reopenedPlace, ← hnamespace, ← hname]

/-- A file with an annotated method in a record, in a record struct, in a generic class and in
a nested class. -/
def variedFile : Tree :=
  let method : Forest Declaration := .cons
    { kind := .methodDeclaration, name := "Speak"
      attributes := [{ name := "global::SourceGeneratorSample.Greetings.SayHello2" }]
      modifiers := .ofTokens ["static", "partial"], returnType := some (.keyword .void)
      parameters := [{ name := "text", type := some (.keyword .string) }] } .nil .nil
  let type (form : TypeForm) (name : String) (typeParameters : List String) : Declaration :=
    { kind := .typeDeclaration form, name := name, typeParameters := typeParameters
      modifiers := .ofTokens ["partial"] }
  Tree.ofForest ⟨0⟩ {}
    (.cons (type .recordType "Tag" []) method
      (.cons (type .recordStructType "Point" []) method
        (.cons (type .classType "Box" ["T"]) method
          (.cons (type .classType "Car" []) (.cons (type .classType "Wheel" []) method .nil)
            .nil))))

/-- The method of a nested class is declared under the heading of its own class alone. -/
theorem fragment_reopens_wheel :
    ∃ r ∈ records ⟨[variedFile]⟩, r.typeName = "Wheel" ∧
      ∃ p ∈ r.node.parent, ∃ form ∈ p.declaration.kind.typeForm?, form ≠ .enumType ∧
        r.fragment "Wheel.cs" =
          .ok { hintName := "Wheel.cs"
                sourceText := (reopenedPlace ⟨[variedFile]⟩ p form).text r.memberLines } ∧
        (reopenedPlace ⟨[variedFile]⟩ p form = placeOf ⟨[variedFile]⟩ p ↔
          form ≠ .recordType ∧ form ≠ .recordStructType ∧ p.declaration.typeParameters = [] ∧
            ∀ q ∈ p.parent, q.declaration.kind.isType = false) := by
  obtain ⟨r, hr, hname⟩ : ∃ r ∈ records ⟨[variedFile]⟩, r.typeName = "Wheel" := by
    decide +kernel
  exact ⟨r, hr, hname, fragment_reopens ⟨[variedFile]⟩ hr "Wheel.cs"⟩

/-- A generated file with one method under one heading. -/
def speakUnder (heading : String) : String :=
  Text.joined "\n"
    ["// <auto-generated/>", "", "#nullable enable", "", heading, "\x7b",
      "    static partial void Speak(string text)",
      "        => global::System.Console.WriteLine($\"Hello, \x7btext\x7d!\");", "\x7d"]

/-- The headings under which the methods of the file are declared, beside what their
fragments say: a record is reopened as a class, a record struct as a struct, a generic class
without its parameter, and a nested class without the class around it. None of the fragments
declares its method in the place of the type that holds it. -/
theorem fragment_not_in_placeOf :
    (records ⟨[variedFile]⟩).map (fun r =>
        (r.node.parent.map fun p => (placeOf ⟨[variedFile]⟩ p).headings.map (·.line),
          (r.fragment "").toOption.map (·.sourceText))) =
      [(some ["partial record Tag"], some (speakUnder "partial class Tag")),
        (some ["partial record struct Point"], some (speakUnder "partial struct Point")),
        (some ["partial class Box<T>"], some (speakUnder "partial class Box")),
        (some ["partial class Car", "partial class Wheel"],
          some (speakUnder "partial class Wheel"))] ∧
      ∀ r ∈ records ⟨[variedFile]⟩, ∀ p ∈ r.node.parent,
        (r.fragment "").toOption.map (·.sourceText) ≠
          some ((placeOf ⟨[variedFile]⟩ p).text r.memberLines) := by
  decide +kernel

end Compilation

end StubGen

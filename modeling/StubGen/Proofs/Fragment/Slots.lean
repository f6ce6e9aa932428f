import StubGen.Fragment
import StubGen.Proofs.Text.Dotted

/-!
# What the text of a fragment tells

The slots of a fragment without documentation can be read off its text. From the front, the
namespace and the heading of the type end at line breaks, and the keyword of the type at the
first space. From the back, the parameter follows the last opening brace, and after the method
line has lost its end the name of the method follows the last space.

The modifiers are what is left between the two ends. Nothing is assumed about them, so they
may break lines, hold comments and look like any other part of a fragment.
-/

namespace StubGen

namespace Text

variable {sep : Char} {first first' rest rest' : String}

/-- Cut at the first occurrence of a character, equal texts have equal parts. -/
theorem append_inj_at_first (h : sep ∉ first.toList) (h' : sep ∉ first'.toList) :
    first ++ (String.singleton sep ++ rest) = first' ++ (String.singleton sep ++ rest') ↔
      first = first' ∧ rest = rest' := by
  constructor
  · intro heq
    have hpieces := congrArg (fun s => pieces sep s.toList) heq
    simp only [String.toList_append, String.toList_singleton, List.singleton_append,
      pieces_append_cons, pieces_of_not_mem h, pieces_of_not_mem h'] at hpieces
    obtain rfl := String.toList_inj.mp (List.cons.inj hpieces).1
    rw [String.append_right_inj, String.append_right_inj] at heq
    exact ⟨rfl, heq⟩
  · rintro ⟨rfl, rfl⟩
    rfl

/-- Cut at the last occurrence of a character, equal texts have equal parts. -/
theorem append_inj_at_last (h : sep ∉ rest.toList) (h' : sep ∉ rest'.toList) :
    first ++ (String.singleton sep ++ rest) = first' ++ (String.singleton sep ++ rest') ↔
      first = first' ∧ rest = rest' := by
  constructor
  · intro heq
    have hcut := congrArg (fun s => cutAtLast? sep s.toList) heq
    simp only [String.toList_append, String.toList_singleton, List.singleton_append,
      cutAtLast?_append _ h, cutAtLast?_append _ h', Option.some.injEq, Prod.mk.injEq,
      String.toList_inj] at hcut
    exact hcut
  · rintro ⟨rfl, rfl⟩
    rfl

end Text

namespace Template

/-- A template without documentation whose slots can be told apart in its text. Its modifiers may
be any text. -/
structure Separable (t : Template) : Prop where
  undocumented : t.methodDocs = []
  namespace_line : '\n' ∉ t.inNamespace.toList
  keyword_word : ' ' ∉ t.typeKeyword.toList
  keyword_line : '\n' ∉ t.typeKeyword.toList
  typeName_line : '\n' ∉ t.typeName.toList
  methodName_word : ' ' ∉ t.methodName.toList
  parameterName_brace : '\x7b' ∉ t.parameterName.toList

instance (t : Template) : Decidable t.Separable :=
  decidable_of_iff
    (t.methodDocs = [] ∧ '\n' ∉ t.inNamespace.toList ∧ ' ' ∉ t.typeKeyword.toList ∧
      '\n' ∉ t.typeKeyword.toList ∧ '\n' ∉ t.typeName.toList ∧ ' ' ∉ t.methodName.toList ∧
      '\x7b' ∉ t.parameterName.toList)
    ⟨fun ⟨h₁, h₂, h₃, h₄, h₅, h₆, h₇⟩ => ⟨h₁, h₂, h₃, h₄, h₅, h₆, h₇⟩,
      fun h => ⟨h.undocumented, h.namespace_line, h.keyword_word, h.keyword_line,
        h.typeName_line, h.methodName_word, h.parameterName_brace⟩⟩

/-- The line that declares a namespace. -/
def namespaceLine (name : String) : String := "namespace " ++ (name ++ ";")

/-- The declaration of a namespace with its line break. There is none for the global one. -/
def namespacePart (name : String) : String :=
  if name = "" then "" else namespaceLine name ++ "\n"

/-- The line that opens the type again. -/
def headingPart (keyword name : String) : String := "partial " ++ (keyword ++ (" " ++ name))

/-- The method declaration up to the parameter, without its indentation. -/
def declarationPart (modifiers name : String) : String :=
  (modifiers ++ " void") ++ (" " ++ name) ++ "(string "

/-- From the parameter in the declaration up to the brace before it in the greeting. -/
def greetingStart (parameter : String) : String :=
  parameter ++ ")\n        => global::System.Console.WriteLine($\"Hello, "

/-- From the parameter in the greeting to the end of the text. -/
def greetingEnd (parameter : String) : String := parameter ++ "\x7d!\");\n\x7d"

/-- The text of an undocumented template, part by part. -/
theorem render_eq {t : Template} (h : t.methodDocs = []) :
    t.render = "// <auto-generated/>\n\n#nullable enable\n" ++
      (namespacePart t.inNamespace ++ ("\n" ++ (headingPart t.typeKeyword t.typeName ++
        ("\n" ++ ("\x7b\n    " ++ ((declarationPart t.modifiers t.methodName ++
          greetingStart t.parameterName) ++ ("\x7b" ++ greetingEnd t.parameterName))))))) := by
  rw [← String.toList_inj]
  by_cases hglobal : t.inNamespace = ""
  · simp [render, lines, methodLine, bodyLine, indent, h, hglobal, Text.joined, namespacePart,
      headingPart, declarationPart, greetingStart, greetingEnd]
  · simp [render, lines, methodLine, bodyLine, indent, h, hglobal, Text.joined, namespacePart,
      namespaceLine, headingPart, declarationPart, greetingStart, greetingEnd]

section Parts

variable {name name' keyword keyword' modifiers modifiers' parameter parameter' : String}
  {rest rest' : String}

/-- A text that declares a namespace does not begin like one that declares none. -/
theorem lineFeed_append_ne (name rest rest' : String) :
    "\n" ++ rest ≠ namespaceLine name ++ rest' := by
  intro h
  have hchars := congrArg String.toList h
  simp [namespaceLine] at hchars

/-- A namespace can be told from its line and what follows. -/
theorem namespaceLine_append_inj (h : '\n' ∉ name.toList) (h' : '\n' ∉ name'.toList) :
    namespaceLine name ++ ("\n" ++ rest) = namespaceLine name' ++ ("\n" ++ rest') ↔
      name = name' ∧ rest = rest' := by
  have hline (name : String) (h : '\n' ∉ name.toList) : '\n' ∉ (namespaceLine name).toList := by
    simp [namespaceLine, h]
  rw [show "\n" = String.singleton '\n' from rfl,
    Text.append_inj_at_first (hline name h) (hline name' h'), namespaceLine, namespaceLine,
    String.append_right_inj, String.append_left_inj]

/-- Whether a namespace is declared, and which, can be told from what stands up to the empty line
and what follows. -/
theorem namespacePart_append_inj (h : '\n' ∉ name.toList) (h' : '\n' ∉ name'.toList) :
    namespacePart name ++ ("\n" ++ rest) = namespacePart name' ++ ("\n" ++ rest') ↔
      name = name' ∧ rest = rest' := by
  unfold namespacePart
  by_cases hname : name = "" <;> by_cases hname' : name' = ""
  · rw [if_pos hname, if_pos hname', String.append_right_inj, String.append_right_inj, hname,
      hname', and_iff_right rfl]
  · rw [if_pos hname, if_neg hname', String.empty_append, String.append_assoc]
    exact iff_of_false (lineFeed_append_ne _ _ _) fun hsame => hname' (hsame.1 ▸ hname)
  · rw [if_neg hname, if_pos hname', String.empty_append, String.append_assoc]
    exact iff_of_false (lineFeed_append_ne _ _ _).symm fun hsame => hname (hsame.1 ▸ hname')
  · rw [if_neg hname, if_neg hname', String.append_assoc, String.append_assoc,
      namespaceLine_append_inj h h', String.append_right_inj]

/-- The keyword and the name of a type can be told from its heading and the lines after it. -/
theorem headingPart_append_inj (hword : ' ' ∉ keyword.toList) (hword' : ' ' ∉ keyword'.toList)
    (h : '\n' ∉ name.toList) (h' : '\n' ∉ name'.toList) :
    headingPart keyword name ++ ("\n" ++ rest) = headingPart keyword' name' ++ ("\n" ++ rest') ↔
      keyword = keyword' ∧ name = name' ∧ rest = rest' := by
  simp only [headingPart, String.append_assoc, String.append_right_inj]
  rw [show " " = String.singleton ' ' from rfl, show "\n" = String.singleton '\n' from rfl,
    Text.append_inj_at_first hword hword', Text.append_inj_at_first h h']

/-- The name of a method can be told from its declaration, whatever the modifiers before it. -/
theorem declarationPart_inj (h : ' ' ∉ name.toList) (h' : ' ' ∉ name'.toList) :
    declarationPart modifiers name = declarationPart modifiers' name' ↔
      modifiers = modifiers' ∧ name = name' := by
  rw [declarationPart, declarationPart, String.append_left_inj,
    show " " = String.singleton ' ' from rfl, Text.append_inj_at_last h h', String.append_left_inj]

/-- The parameter can be told from what follows the last opening brace. -/
theorem append_greetingEnd_inj (h : '\x7b' ∉ parameter.toList)
    (h' : '\x7b' ∉ parameter'.toList) :
    rest ++ ("\x7b" ++ greetingEnd parameter) = rest' ++ ("\x7b" ++ greetingEnd parameter') ↔
      rest = rest' ∧ parameter = parameter' := by
  have hbrace (parameter : String) (h : '\x7b' ∉ parameter.toList) :
      '\x7b' ∉ (greetingEnd parameter).toList := by
    simp [greetingEnd, h]
  rw [show "\x7b" = String.singleton '\x7b' from rfl,
    Text.append_inj_at_last (hbrace parameter h) (hbrace parameter' h'), greetingEnd, greetingEnd,
    String.append_left_inj]

end Parts

/-- Two templates whose slots can be told apart have the same text only if all their slots are the
same, whatever their modifiers look like. -/
theorem render_eq_render_iff {t u : Template} (ht : t.Separable) (hu : u.Separable) :
    t.render = u.render ↔ t = u := by
  constructor
  · intro h
    rw [render_eq ht.undocumented, render_eq hu.undocumented, String.append_right_inj,
      namespacePart_append_inj ht.namespace_line hu.namespace_line,
      headingPart_append_inj ht.keyword_word hu.keyword_word ht.typeName_line hu.typeName_line,
      String.append_right_inj,
      append_greetingEnd_inj ht.parameterName_brace hu.parameterName_brace] at h
    obtain ⟨hnamespace, hkeyword, htype, hstart, hparameter⟩ := h
    -- Without the parameter, the line ends with the name of the method.
    rw [hparameter, String.append_left_inj,
      declarationPart_inj ht.methodName_word hu.methodName_word] at hstart
    obtain ⟨hmodifiers, hmethod⟩ := hstart
    have hdocs : t.methodDocs = u.methodDocs := ht.undocumented.trans hu.undocumented.symm
    cases t
    cases u
    simp_all
  · rintro rfl
    rfl

/-- A template for a method with the one modifier that every stub has. -/
def plainStub : Template where
  inNamespace := "G"
  typeKeyword := "class"
  typeName := "C"
  modifiers := "partial"
  methodName := "M"
  parameterName := "a"

/-- The same method with modifiers that look like the end of one fragment and the beginning of
the next. -/
def imitatingStub : Template :=
  { plainStub with
    modifiers := "partial void M(string a)\n        => global::System.Console.WriteLine(" ++
      "$\"Hello, \x7ba\x7d!\");\n\x7d\nnamespace G;\n\npartial class C\n\x7b\n    partial" }

/-- Such modifiers are told apart from the text around them. -/
theorem render_imitatingStub_ne :
    imitatingStub.Separable ∧ plainStub.Separable ∧ imitatingStub.render ≠ plainStub.render := by
  have himitating : imitatingStub.Separable := by decide
  have hplain : plainStub.Separable := by decide
  have hdiffer : imitatingStub ≠ plainStub := by decide
  exact ⟨himitating, hplain, mt (render_eq_render_iff himitating hplain).mp hdiffer⟩

end Template

end StubGen

/-!
# Texts in pieces

Splitting at a character, joining with a separator, splitting at the last dot, and taking
a fixed beginning or end off a text. Splitting keeps empty pieces, so joining the pieces
gives the text back.
-/

namespace StubGen.Text

/-- The pieces of a list of characters between the occurrences of `sep`, empty ones kept. -/
def pieces (sep : Char) : List Char → List (List Char)
  | [] => [[]]
  | c :: cs =>
    if c = sep then [] :: pieces sep cs
    else
      match pieces sep cs with
      | [] => [[c]]
      | piece :: rest => (c :: piece) :: rest

/-- The pieces of a text between the occurrences of `sep`, empty ones kept. -/
def splitAt (sep : Char) (s : String) : List String :=
  (pieces sep s.toList).map String.ofList

/-- The texts one after the other, with `sep` between neighbours. -/
def joined (sep : String) : List String → String
  | [] => ""
  | [s] => s
  | s :: rest => s ++ sep ++ joined sep rest

/-- What follows `start` in a text that begins with it. -/
def afterStart? (start s : String) : Option String :=
  (start.toList.isPrefixOf? s.toList).map String.ofList

/-- What comes before `ending` in a text that ends with it. -/
def beforeEnd? (ending s : String) : Option String :=
  (ending.toList.isSuffixOf? s.toList).map String.ofList

/-- A text that ends with `ending`. -/
def endsWith (ending s : String) : Bool :=
  ending.toList.isSuffixOf s.toList

/-- A text that begins with `start`. -/
def startsWith (start s : String) : Bool :=
  start.toList.isPrefixOf s.toList

/-- Whether `part` occurs among the characters without a gap. -/
def occursIn (part : List Char) : List Char → Bool
  | [] => part.isEmpty
  | c :: cs => part.isPrefixOf (c :: cs) || occursIn part cs

/-- The characters before and after the last `sep`, if there is one. -/
def cutAtLast? (sep : Char) : List Char → Option (List Char × List Char)
  | [] => none
  | c :: cs =>
    match cutAtLast? sep cs with
    | some (before, after) => some (c :: before, after)
    | none => if c = sep then some ([], cs) else none

/-- A dotted name as its qualifier and its simple name. The qualifier is empty when the
name has no dot. -/
def qualifierAndName (s : String) : String × String :=
  match cutAtLast? '.' s.toList with
  | some (qualifier, name) => (String.ofList qualifier, String.ofList name)
  | none => ("", s)

/-- Splitting yields at least one piece. -/
theorem pieces_ne_nil (sep : Char) (cs : List Char) : pieces sep cs ≠ [] := by
  cases cs with
  | nil => simp [pieces]
  | cons c cs =>
    simp only [pieces]
    split
    · simp
    · split <;> simp

/-- Without a separator there is one piece. -/
theorem pieces_of_not_mem {sep : Char} {cs : List Char} (h : sep ∉ cs) : pieces sep cs = [cs] := by
  induction cs with
  | nil => rfl
  | cons c cs ih =>
    obtain ⟨hc, hcs⟩ := not_or.mp (mt List.mem_cons.mpr h)
    simp only [pieces, if_neg (Ne.symm hc), ih hcs]

/-- A separator ends the pieces before it and starts those after it. -/
theorem pieces_append_cons (sep : Char) (before after : List Char) :
    pieces sep (before ++ sep :: after) = pieces sep before ++ pieces sep after := by
  induction before with
  | nil => simp only [List.nil_append, pieces, if_true, List.singleton_append]
  | cons c cs ih =>
    by_cases hc : c = sep
    · simp only [List.cons_append, pieces, hc, if_true, ih]
    · simp only [List.cons_append, pieces, hc, if_false, ih]
      cases hpieces : pieces sep cs with
      | nil => exact absurd hpieces (pieces_ne_nil sep cs)
      | cons piece rest => rfl

/-- Only the empty text has the empty piece as its only one. -/
theorem eq_nil_of_pieces {sep : Char} {cs : List Char} (h : pieces sep cs = [[]]) : cs = [] := by
  cases cs with
  | nil => rfl
  | cons c cs =>
    simp only [pieces] at h
    split at h
    · exact absurd (List.cons.inj h).2 (pieces_ne_nil sep cs)
    · split at h <;> simp at h

/-- No piece holds the separator. -/
theorem not_mem_of_mem_pieces (sep : Char) (cs : List Char) :
    ∀ piece ∈ pieces sep cs, sep ∉ piece := by
  induction cs with
  | nil => simp [pieces]
  | cons c cs ih =>
    simp only [pieces]
    by_cases hc : c = sep
    · simp only [hc, if_true]
      intro piece hpiece
      rcases List.mem_cons.mp hpiece with rfl | hpiece
      · simp
      · exact ih piece hpiece
    · simp only [hc, if_false]
      split
      · intro piece hpiece
        simp only [List.mem_singleton] at hpiece
        simp [hpiece, Ne.symm hc]
      · rename_i first rest hsplit
        intro piece hpiece
        rcases List.mem_cons.mp hpiece with rfl | hpiece
        · simp only [List.mem_cons, not_or]
          exact ⟨Ne.symm hc, ih first (by simp [hsplit])⟩
        · exact ih piece (by simp [hsplit, hpiece])

end StubGen.Text

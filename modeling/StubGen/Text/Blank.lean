/-!
# Blank characters

Blank means the Unicode property White_Space, given here as a table of ranges. The
module also holds the cuts of a text that depend on it: the text without blanks, the
text trimmed at both ends, and its first word.
-/

namespace StubGen.Text

/-- The ranges of code points with the property White_Space, both ends included. -/
def blankRanges : List (Nat × Nat) :=
  [(0x9, 0xD), (0x20, 0x20), (0x85, 0x85), (0xA0, 0xA0), (0x1680, 0x1680), (0x2000, 0x200A),
    (0x2028, 0x2029), (0x202F, 0x202F), (0x205F, 0x205F), (0x3000, 0x3000)]

/-- A character with the property White_Space. -/
def isBlank (c : Char) : Bool :=
  blankRanges.any fun range => range.1 ≤ c.toNat && c.toNat ≤ range.2

/-- The text without its blanks. -/
def compact (s : String) : String :=
  String.ofList (s.toList.filter fun c => !isBlank c)

/-- The characters without the blanks at either end. -/
def trimBlanks (cs : List Char) : List Char :=
  ((cs.dropWhile isBlank).reverse.dropWhile isBlank).reverse

/-- The first maximal run of characters that are not blank. -/
def firstWord? (cs : List Char) : Option String :=
  match (cs.dropWhile isBlank).takeWhile (fun c => !isBlank c) with
  | [] => none
  | word => some (String.ofList word)

/-- The text up to its first line feed, trimmed. A carriage return before the line feed is
blank, so it goes with the trimming. -/
def firstLine (cs : List Char) : String :=
  String.ofList (trimBlanks (cs.takeWhile fun c => c != '\n'))

/-- A compact text holds no blank. -/
theorem not_isBlank_of_mem_compact {s : String} {c : Char} (h : c ∈ (compact s).toList) :
    isBlank c = false := by
  simp only [compact, String.toList_ofList, List.mem_filter] at h
  simpa using h.2

/-- A text without blanks stays as it is. -/
theorem compact_eq_self {s : String} (h : ∀ c ∈ s.toList, isBlank c = false) :
    compact s = s := by
  have hfilter : s.toList.filter (fun c => !isBlank c) = s.toList :=
    List.filter_eq_self.mpr fun c hc => by simp [h c hc]
  rw [compact, hfilter, String.ofList_toList]

/-- Removing the blanks a second time changes nothing. -/
theorem compact_compact (s : String) : compact (compact s) = compact s :=
  compact_eq_self fun _ => not_isBlank_of_mem_compact

end StubGen.Text

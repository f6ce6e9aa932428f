/-!
# Slices by byte offset

Offsets count bytes of the UTF-8 encoding. A slice exists only if both offsets are
character boundaries of the text, in order and not past its end.
-/

namespace StubGen.Text

/-- The characters after the first `n` bytes, if these end at a character boundary. -/
def dropBytes : List Char → Nat → Option (List Char)
  | cs, 0 => some cs
  | [], _ + 1 => none
  | c :: cs, n + 1 => if c.utf8Size ≤ n + 1 then dropBytes cs (n + 1 - c.utf8Size) else none

/-- The characters that make up the first `n` bytes, if these end at a character boundary. -/
def takeBytes : List Char → Nat → Option (List Char)
  | _, 0 => some []
  | [], _ + 1 => none
  | c :: cs, n + 1 =>
    if c.utf8Size ≤ n + 1 then (takeBytes cs (n + 1 - c.utf8Size)).map (c :: ·) else none

/-- The characters from byte `start` on to byte `stop`, which is left out. -/
def slice? (s : String) (start stop : Nat) : Option (List Char) :=
  if start ≤ stop then (dropBytes s.toList start).bind (takeBytes · (stop - start)) else none

/-- The text from byte `start` on to byte `stop`, empty if there is no such slice. -/
def slice (s : String) (start stop : Nat) : String :=
  ((slice? s start stop).map String.ofList).getD ""

end StubGen.Text

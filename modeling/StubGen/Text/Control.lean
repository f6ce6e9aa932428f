/-!
# Control sequences

A text may hold characters that a terminal does not show but obeys: control characters,
and the sequences of characters that an escape opens. Here they are taken out of a text,
so that only what is to be read is left.

A blank that is a control character is shown, also inside a sequence. What follows such a
blank is shown as well, up to the next control character, with which the sequence goes on.
-/

namespace StubGen.Text

/-- The sequence that is open at a place of a text. -/
inductive OpenSequence where
  /-- No sequence is open. -/
  | closed
  /-- An escape, and nothing after it yet. -/
  | escape
  /-- A sequence of few characters, which ends at any character from the digits on. -/
  | short
  /-- A command with numbers, which ends at a letter. -/
  | command
  /-- The beginning of a message to the device. -/
  | message
  /-- The numbers at the beginning of a message to the device. -/
  | messageNumbers
  /-- What follows the numbers at the beginning of a message to the device. -/
  | messageName
  /-- A string, which lasts up to the byte that closes strings. -/
  | string
  /-- A setting such as the title, which lasts up to the bell. -/
  | setting
deriving DecidableEq, Repr, Inhabited

/-- Whether a character is between two others, both included. -/
def isWithin (low high c : Char) : Bool := low ≤ c && c ≤ high

/-- A character of one byte. -/
def isAscii (c : Char) : Bool := c.toNat < 0x80

/-- The control characters that are blank. -/
def isControlBlank (c : Char) : Bool :=
  c == '\t' || c == '\n' || c == '\x0c' || c == '\r'

/-- A character that is shown where no sequence is open. Control characters of two bytes
are shown too. -/
def isShown (c : Char) : Bool := !isAscii c || isWithin ' ' '~' c || isControlBlank c

/-- Whether the byte that closes strings is among those of the character. -/
def closesStrings (c : Char) : Bool :=
  !isAscii c && (String.singleton c).toUTF8.data.contains 0x9c

namespace OpenSequence

/-- The sequence that is open after one more character. An escape opens a sequence
whatever was open before, and two control characters cancel what is open. -/
def next (sequence : OpenSequence) (c : Char) : OpenSequence :=
  if c = '\x1b' then escape
  else if c = '\x18' ∨ c = '\x1a' then closed
  else
    match sequence with
    | closed => closed
    | escape =>
      if isWithin ' ' '/' c then short
      else if c = '[' then command
      else if c = ']' then setting
      else if c = 'P' then message
      else if c = 'X' ∨ c = '^' ∨ c = '_' then string
      else if isWithin '0' '~' c then closed
      else escape
    | short => if isWithin '0' '~' c then closed else short
    | command => if isWithin '@' '~' c then closed else command
    | message =>
      if isWithin ' ' '/' c then messageName
      else if isWithin '0' '?' c then messageNumbers
      else if isWithin '@' '~' c then string
      else message
    | messageNumbers =>
      if isWithin ' ' '/' c then messageName
      else if isWithin '<' '~' c then string
      else messageNumbers
    | messageName => if isWithin '0' '~' c then string else messageName
    | string => if closesStrings c then closed else string
    | setting => if c = '\x07' then closed else setting

/-- Whether a character is shown while a sequence is open. -/
def shows (sequence : OpenSequence) (c : Char) : Bool :=
  match sequence with
  | closed => isShown c
  | escape | short | command => isControlBlank c
  | _ => false

/-- What is shown counts as text. -/
theorem isShown_of_shows {sequence : OpenSequence} {c : Char} (h : sequence.shows c = true) :
    isShown c = true := by
  cases sequence <;> simp_all [shows, isShown]

end OpenSequence

/-- The characters that are shown, given the open sequence and whether the character
before was shown, in which case the sequence rests. -/
def shownFrom (sequence : OpenSequence) (resting : Bool) : List Char → List Char
  | [] => []
  | c :: cs =>
    if (if resting then OpenSequence.closed else sequence).shows c then
      c :: shownFrom (if isAscii c then sequence else .closed) true cs
    else shownFrom (sequence.next c) false cs

/-- The text without control characters and sequences. -/
def withoutControls (s : String) : String :=
  String.ofList (shownFrom .closed false s.toList)

/-- Only characters that are shown are left. -/
theorem isShown_of_mem_shownFrom {cs : List Char} {c : Char} {sequence : OpenSequence}
    {resting : Bool} (h : c ∈ shownFrom sequence resting cs) : isShown c = true := by
  induction cs generalizing sequence resting with
  | nil => simp [shownFrom] at h
  | cons d cs ih =>
    by_cases hshows : (if resting then OpenSequence.closed else sequence).shows d = true
    · rw [shownFrom, if_pos hshows] at h
      rcases List.mem_cons.mp h with rfl | h
      · exact OpenSequence.isShown_of_shows hshows
      · exact ih h
    · rw [shownFrom, if_neg hshows] at h
      exact ih h

/-- A text of nothing but characters that are shown stays as it is. -/
theorem shownFrom_eq_self {cs : List Char} {resting : Bool}
    (h : ∀ c ∈ cs, isShown c = true) : shownFrom .closed resting cs = cs := by
  induction cs generalizing resting with
  | nil => rfl
  | cons c cs ih =>
    have hshows : OpenSequence.closed.shows c = true := h c (by simp)
    have hrest : shownFrom .closed true cs = cs := ih fun d hd => h d (by simp [hd])
    simp [shownFrom, hshows, hrest]

/-- Taking the controls out a second time changes nothing. -/
theorem withoutControls_withoutControls (s : String) :
    withoutControls (withoutControls s) = withoutControls s := by
  simp only [withoutControls, String.toList_ofList]
  rw [shownFrom_eq_self fun c hc => isShown_of_mem_shownFrom hc]

end StubGen.Text

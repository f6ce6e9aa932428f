/-!
# Readers

A reader takes characters off the front of a text and yields a value, or fails. Failing
gives back what was taken, so another reader can be tried on the same text.
-/

namespace StubGen.Text

/-- Takes characters off the front of a text. -/
abbrev Reader (α : Type) := StateT (List Char) Option α

namespace Reader

variable {α : Type}

/-- Takes one character of a class. -/
def one (wanted : Char → Bool) : Reader Char
  | [] => none
  | c :: cs => if wanted c then some (c, cs) else none

/-- Takes one given character. -/
def char (c : Char) : Reader Unit
  | [] => none
  | d :: cs => if d = c then some ((), cs) else none

/-- Takes the given characters. -/
def exactly (text : String) : Reader Unit := fun cs =>
  (text.toList.isPrefixOf? cs).map fun rest => ((), rest)

/-- Takes the longest run of characters of a class, which may be empty. -/
def run (wanted : Char → Bool) : Reader (List Char) := fun cs =>
  some (cs.takeWhile wanted, cs.dropWhile wanted)

/-- Takes the longest run of characters of a class, which may not be empty. -/
def run1 (wanted : Char → Bool) : Reader (List Char) := fun cs =>
  match cs.takeWhile wanted with
  | [] => none
  | taken => some (taken, cs.dropWhile wanted)

/-- Tries a reader. -/
def attempt (r : Reader α) : Reader (Option α) := fun cs =>
  match r cs with
  | some (a, rest) => some (some a, rest)
  | none => some (none, cs)

/-- Yields the value of the first reader that does not fail. -/
def oneOf : List (Reader α) → Reader α
  | [] => fun _ => none
  | r :: others => fun cs =>
    match r cs with
    | some result => some result
    | none => oneOf others cs

/-- Repeats a reader until it fails. The first argument bounds the repetitions. -/
def repeatUpTo (r : Reader α) : Nat → Reader (List α)
  | 0 => fun cs => some ([], cs)
  | n + 1 => fun cs =>
    match r cs with
    | none => some ([], cs)
    | some (a, rest) => (repeatUpTo r n rest).map fun result => (a :: result.1, result.2)

/-- Repeats a reader that takes at least one character until it fails. -/
def many (r : Reader α) : Reader (List α) := fun cs => repeatUpTo r cs.length cs

/-- Succeeds at the end of the text. -/
def atEnd : Reader Unit
  | [] => some ((), [])
  | _ :: _ => none

/-- What a reader yields for a whole text. -/
def whole? (r : Reader α) (text : String) : Option α :=
  match r text.toList with
  | some (a, []) => some a
  | _ => none

end Reader

/-- Digits of the decimal system. -/
def isDigit (c : Char) : Bool := '0' ≤ c && c ≤ '9'

/-- The value of a hexadecimal digit. -/
def hexDigit? (c : Char) : Option Nat :=
  if '0' ≤ c ∧ c ≤ '9' then some (c.toNat - '0'.toNat)
  else if 'a' ≤ c ∧ c ≤ 'f' then some (c.toNat - 'a'.toNat + 10)
  else if 'A' ≤ c ∧ c ≤ 'F' then some (c.toNat - 'A'.toNat + 10)
  else none

/-- The number that digits write in a base. -/
def numberOf (base : Nat) (digits : List Char) : Nat :=
  digits.foldl (fun n c => n * base + (hexDigit? c).getD 0) 0

/-- Takes a given number of hexadecimal digits and yields the number they write. -/
def Reader.hexNumber (width : Nat) : Reader Nat := fun cs =>
  let digits := cs.take width
  if digits.length = width ∧ digits.all fun c => (hexDigit? c).isSome then
    some (numberOf 16 digits, cs.drop width)
  else none

/-- The character of a code point; surrogates and numbers past the last code point have
none. -/
def charOfNat? (n : Nat) : Option Char :=
  if h : n.isValidChar then some (Char.ofNatAux n h) else none

end StubGen.Text

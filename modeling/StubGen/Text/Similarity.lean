/-!
# Similar texts

Two texts are similar if many of their characters have a partner in the other text, not
far from their own place, and if most partners come in the same order.
-/

namespace StubGen.Text

/-- Gives a character the first equal one that has no partner yet and stands at a place
from `low` up to `high`, which is left out. The second parts tell who has a partner; the
first place is `place`. -/
def pairWith? (c : Char) (low high : Nat) : Nat → List (Char × Bool) →
    Option (List (Char × Bool))
  | _, [] => none
  | place, (d, taken) :: rest =>
    if low ≤ place ∧ place < high ∧ d = c ∧ taken = false then some ((d, true) :: rest)
    else (pairWith? c low high (place + 1) rest).map ((d, taken) :: ·)

/-- The characters of two texts that have a partner in the other one, each in their order.
Partners are at most `reach` places apart, and the first text starts at `place`. -/
def pairedFrom (reach : Nat) : Nat → List Char → List (Char × Bool) → List Char × List Char
  | _, [], others => ([], (others.filter (·.2)).map (·.1))
  | place, c :: cs, others =>
    match pairWith? c (place - reach) (place + reach + 1) 0 others with
    | some others' =>
      let paired := pairedFrom reach (place + 1) cs others'
      (c :: paired.1, paired.2)
    | none => pairedFrom reach (place + 1) cs others

/-- The characters of two texts that have a partner in the other one. Half of the longer
text is out of reach. -/
def paired (a b : List Char) : List Char × List Char :=
  pairedFrom (max a.length b.length / 2 - 1) 0 a (b.map (·, false))

/-- Whether two texts are similar: the share of paired characters in either text and the
share of pairs in order come to more than seven tenths on average. Two characters out of
order count as one fault. -/
def isSimilar (s t : String) : Bool :=
  let a := s.toList.length
  let b := t.toList.length
  let (first, second) := paired s.toList t.toList
  let pairs := first.length
  let faults := ((first.zip second).filter fun p => p.1 != p.2).length / 2
  21 * pairs * a * b < 10 * (pairs * pairs * b + pairs * pairs * a + (pairs - faults) * a * b)

end StubGen.Text

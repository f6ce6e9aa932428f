/-!
# JSON values

A value keeps the order of its members and the digits of its numbers. An escape in a text
may name half of a surrogate pair without its partner; such a text has no content.
-/

namespace StubGen

/-- A JSON value. -/
inductive Json where
  | null
  | flag (content : Bool)
  /-- A number as it is written. -/
  | number (written : String)
  /-- A text; without content if its escapes stand for no text. -/
  | text (content : Option String)
  | array (items : List Json)
  /-- Keys, which are texts, with their values. -/
  | object (members : List (Option String × Json))
deriving Inhabited

namespace Json

/-- A text value. -/
def ofString (s : String) : Json := text (some s)

/-- A whole number. -/
def ofNat (n : Nat) : Json := number (toString n)

/-- An object. -/
def ofMembers (members : List (String × Json)) : Json :=
  object (members.map fun member => (some member.1, member.2))

end Json

end StubGen

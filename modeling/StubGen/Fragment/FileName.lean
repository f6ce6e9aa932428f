/-!
# File names of fragments

The fragments of a pass are named after their types. If the name of the type alone is
taken, the name of the method is added, and then a counter that starts at two.
-/

namespace StubGen

namespace FileName

/-- The first choice: the type. -/
def ofType (typeName suffix : String) : String := typeName ++ suffix

/-- The second choice: the type and the method. -/
def ofMember (typeName memberName suffix : String) : String :=
  typeName ++ "." ++ memberName ++ suffix

/-- Any later choice: the type, the method and a number. -/
def numbered (typeName memberName suffix : String) (n : Nat) : String :=
  typeName ++ "." ++ memberName ++ "." ++ toString n ++ suffix

/-- The first numbered name that is not taken, from `n` on. The first argument bounds the
number of tries; the last try is not checked. -/
def firstFree (taken : List String) (typeName memberName suffix : String) : Nat → Nat → String
  | 0, n => numbered typeName memberName suffix n
  | tries + 1, n =>
    if numbered typeName memberName suffix n ∈ taken then
      firstFree taken typeName memberName suffix tries (n + 1)
    else numbered typeName memberName suffix n

/-- The first choice that is not taken. -/
def choose (taken : List String) (typeName memberName suffix : String) : String :=
  if ofType typeName suffix ∉ taken then ofType typeName suffix
  else if ofMember typeName memberName suffix ∉ taken then ofMember typeName memberName suffix
  else firstFree taken typeName memberName suffix taken.length 2

end FileName

/-- A request for a file name. -/
structure NameRequest where
  typeName : String
  memberName : String
  suffix : String
deriving DecidableEq, Repr, Inhabited

/-- The names given to a sequence of requests when some are taken already. -/
def FileName.allocate (taken : List String) : List NameRequest → List String
  | [] => []
  | request :: rest =>
    let name := choose taken request.typeName request.memberName request.suffix
    name :: allocate (name :: taken) rest

end StubGen

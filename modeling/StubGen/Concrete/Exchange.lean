import StubGen.Concrete.Listing
import StubGen.Json.Reader
import StubGen.Parsed

/-!
# Concrete trees in exchange with a parser

A parser outside of this library hands its results over as JSON: an object with the text
under `text` and the listing of its concrete tree under `cst`. Every entry of a listing has
the position of its parent, the kind, a sum of flags, two byte offsets and possibly the
name of a field.
-/

namespace StubGen.Concrete

/-- Whether a sum of flags holds a flag, which is a power of two. -/
def hasFlag (sum flag : Nat) : Bool := sum / flag % 2 == 1

/-- The flag of nodes that stand for more than a fixed piece of text. -/
def namedFlag : Nat := 1

/-- The flag of error nodes. -/
def errorFlag : Nat := 2

/-- The flag of missing nodes. -/
def missingFlag : Nat := 4

/-- Reads an entry of a listing. The parent of the root is no position. -/
def Entry.ofJson? : Json → Option Entry
  | .array [parent, kind, flags, start, stop, field] => do
    let sum ← flags.nat?
    some
      { parent := parent.nat?
        node :=
          { kind := ← kind.string?
            named := hasFlag sum namedFlag
            isError := hasFlag sum errorFlag
            isMissing := hasFlag sum missingFlag
            start := ← start.nat?
            stop := ← stop.nat?
            field := field.string? } }
  | _ => none

/-- Reads a concrete tree. -/
def ofJson? : Json → Option Concrete
  | .array entries => (entries.mapM Entry.ofJson?).bind ofListing?
  | _ => none

/-- The concrete tree of the empty text. -/
def emptyUnit : Concrete where
  node :=
    { kind := "compilation_unit", named := true, isError := false, isMissing := false,
      start := 0, stop := 0, field := none }
  below := .nil

/-- Reads a text with its concrete tree. -/
def parsedText? (line : String) : Option (String × Concrete) :=
  match Json.ofText? line with
  | some (.object members) => do
    let source ← (members.find? (·.1 == some "text")).bind fun m => m.2.string?
    let tree ← (members.find? (·.1 == some "cst")).bind fun m => ofJson? m.2
    some (source, tree)
  | _ => none

end StubGen.Concrete

namespace StubGen

/-- The grammar that knows some texts with their trees. The empty text is always known. -/
def Grammar.ofTable (table : List (String × Concrete)) : Grammar := fun source =>
  match (("", Concrete.emptyUnit) :: table).find? (·.1 == source) with
  | some (_, tree) => .ok tree
  | none => .error "no concrete tree was supplied for the text"

/-- The grammar that knows the texts on the lines of an exchange. -/
def Grammar.ofLines (lines : List String) : Grammar :=
  Grammar.ofTable (lines.filterMap Concrete.parsedText?)

end StubGen

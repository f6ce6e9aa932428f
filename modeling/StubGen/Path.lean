import StubGen.Text.Pieces

/-!
# Paths

A path is a text; what it means is given by its components. Repeated and trailing slashes
and inner dots make no difference, a leading dot and double dots do. Paths are shown as
they were written.
-/

namespace StubGen

/-- One step of a path. -/
inductive PathComponent where
  | root
  /-- A leading dot. -/
  | here
  | up
  | name (text : String)
deriving DecidableEq, Repr, Inhabited

namespace PathComponent

/-- The place among the kinds of steps when paths are sorted. -/
def rank : PathComponent → Nat
  | root => 0
  | here => 1
  | up => 2
  | name _ => 3

/-- Whether a step comes strictly before another when paths are sorted: by kind, and names
by their characters. -/
def before : PathComponent → PathComponent → Bool
  | name a, name b => a < b
  | a, b => a.rank < b.rank

/-- The step that a piece other than the first stands for. -/
def ofPiece? (piece : String) : Option PathComponent :=
  if piece = "" ∨ piece = "." then none
  else if piece = ".." then some up
  else some (name piece)

end PathComponent

/-- A path as written. -/
structure Path where
  text : String
deriving DecidableEq, Repr, Inhabited

namespace Path

/-- The texts between slashes. -/
def pieces (p : Path) : List String := Text.splitAt '/' p.text

/-- A path that starts at the root. -/
def isAbsolute (p : Path) : Bool := Text.startsWith "/" p.text

/-- The first step, which may be the root or a dot, and the others. -/
def componentsOf : List String → List PathComponent
  | [] => []
  | "" :: [] => []
  | "" :: rest => .root :: rest.filterMap PathComponent.ofPiece?
  | "." :: rest => .here :: rest.filterMap PathComponent.ofPiece?
  | first :: rest => (first :: rest).filterMap PathComponent.ofPiece?

/-- The steps of the path. -/
def components (p : Path) : List PathComponent := componentsOf p.pieces

/-- Whether two paths have the same steps. -/
def same (p q : Path) : Bool := p.components == q.components

/-- Whether one list of steps comes no later than another, first difference first. -/
def componentsLe : List PathComponent → List PathComponent → Bool
  | [], _ => true
  | _ :: _, [] => false
  | a :: as, b :: bs => if a = b then componentsLe as bs else a.before b

/-- Whether a path comes no later than another when paths are sorted by their steps. -/
def le (p q : Path) : Bool := componentsLe p.components q.components

/-- The path that `q` is when it starts in `p`. -/
def join (p q : Path) : Path :=
  if q.isAbsolute || p.text == "" then q
  else if Text.endsWith "/" p.text then ⟨p.text ++ q.text⟩
  else ⟨p.text ++ "/" ++ q.text⟩

/-- The pieces without those at the end that are no step. -/
def trimPieces (pieces : List String) : List String :=
  (pieces.reverse.dropWhile fun piece => piece = "" || piece = ".").reverse

/-- The pieces of the path without those at the end that are no step. -/
def steps (p : Path) : List String := trimPieces p.pieces

/-- Whether a dot comes after the last step. -/
def endsInDot (p : Path) : Bool := (p.pieces.drop p.steps.length).contains "."

/-- The pieces without the last step. -/
def withoutLastStep (pieces : List String) : List String :=
  trimPieces (trimPieces pieces).dropLast

/-- The path without its last step, a name. Slashes and dots before that step go with it,
the root and a leading dot stay. -/
def directory (p : Path) : Path :=
  match p.pieces with
  | "" :: rest => ⟨"/" ++ Text.joined "/" (withoutLastStep rest)⟩
  | "." :: rest => ⟨Text.joined "/" ("." :: withoutLastStep rest)⟩
  | pieces => ⟨Text.joined "/" (withoutLastStep pieces)⟩

/-- The last step, if it is a name. -/
def fileName? (p : Path) : Option String :=
  match p.components.getLast? with
  | some (.name text) => some text
  | _ => none

/-- What follows the last dot of the file name, unless the name starts with that dot. -/
def extension? (p : Path) : Option String :=
  p.fileName?.bind fun text =>
    match Text.cutAtLast? '.' text.toList with
    | some (_ :: _, ending) => some (String.ofList ending)
    | _ => none

end Path

end StubGen

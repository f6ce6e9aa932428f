import StubGen.Fragment.Emit
import StubGen.Receiver

/-!
# Generators

A generator is a name and a program over a compilation. The program hands fragments to its
host one at a time, sees for each whether it was accepted, and ends in success or failure.
During a pass the host refuses a fragment whose name it has already.
-/

namespace StubGen

/-- What a generator does. -/
inductive Program where
  | finish (outcome : Except GeneratorError Unit)
  /-- Hands over a fragment and goes on with the host's answer. -/
  | add (fragment : Fragment) (next : Except GeneratorError Unit → Program)

namespace Program

instance : Inhabited Program := ⟨finish (.ok ())⟩

/-- Hands over the fragments in order and fails at the first refusal. -/
def addAll : List Fragment → Program
  | [] => finish (.ok ())
  | fragment :: rest =>
    add fragment fun
      | .ok () => addAll rest
      | .error e => finish (.error e)

end Program

/-- A source generator. -/
structure Generator where
  /-- The name, which is also that of its output directory. -/
  name : String
  program : Compilation → Program

/-- The state of one pass of one generator. -/
structure Pass where
  generator : String
  /-- Names that count as added before the pass. -/
  reserved : List String := []
  /-- The accepted fragments, in order. -/
  sources : List Fragment := []
deriving Repr, Inhabited

namespace Pass

/-- Whether a fragment of this name was added. -/
def holds (p : Pass) (hintName : String) : Bool :=
  p.reserved.contains hintName || p.sources.any (·.hintName == hintName)

/-- Takes a fragment in, or refuses it. -/
def add (p : Pass) (fragment : Fragment) : Pass × Except GeneratorError Unit :=
  if p.holds fragment.hintName then
    (p, .error (.duplicateHintName p.generator fragment.hintName))
  else ({ p with sources := p.sources ++ [fragment] }, .ok ())

/-- Runs a program to its end. -/
def run (p : Pass) : Program → Pass × Except GeneratorError Unit
  | .finish outcome => (p, outcome)
  | .add fragment next =>
    match p.add fragment with
    | (p', answer) => p'.run (next answer)

end Pass

namespace Generator

/-- The ending of the file names of completed greeting stubs. -/
def stubSuffix : String := ".g.cs"

/-- The ending of the file names of completed annotated methods. -/
def annotatedSuffix : String := ".GreetingGenerator_UseAttribute.g.cs"

/-- Completes the first greeting stub of a compilation. -/
def stub : Generator where
  name := "partial-method"
  program := fun c =>
    match c.targetType? with
    | none => .finish (.ok ())
    | some typeName =>
      .add (Fragment.ofTargetType typeName stubSuffix) fun answer => .finish answer

/-- Completes every annotated method of a compilation. -/
def annotated : Generator where
  name := "attribute"
  program := fun c =>
    match c.records.fragments annotatedSuffix with
    | .ok fragments => .addAll fragments
    | .error e => .finish (.error e)

/-- Both generators. -/
def all : List Generator := [stub, annotated]

end Generator

end StubGen

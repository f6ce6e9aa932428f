import StubGen.Candidate

/-!
# The stub receiver

A receiver is shown nodes one after the other and keeps the greeting stub of the first
partial type that has one. It asks to stop at every such type.
-/

namespace StubGen

/-- What a receiver has kept. -/
structure Receiver where
  target : Option NodeRef := none

namespace Receiver

/-- Shows a node to the receiver. A target once kept stays. -/
def visit (r : Receiver) (n : NodeRef) : Receiver × Flow :=
  if n.declaration.isPartialType then
    match n.targetStub? with
    | some stub => ({ target := r.target.or (some stub) }, .halt)
    | none => (r, .proceed)
  else (r, .proceed)

/-- What a fresh receiver keeps of a compilation. -/
def ofCompilation (c : Compilation) : Receiver := (c.walk visit {}).1

end Receiver

/-- The name of the type whose greeting stub is completed. -/
def Compilation.targetType? (c : Compilation) : Option String := do
  let stub ← (Receiver.ofCompilation c).target
  let type ← stub.enclosingType?
  some type.declaration.name

end StubGen

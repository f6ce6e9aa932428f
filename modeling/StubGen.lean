import StubGen.Main
import StubGen.Proofs.Host.Session
import StubGen.Proofs.Model.Binding
import StubGen.Proofs.Receiver.Overlap
import StubGen.Proofs.Record.Reopening
import StubGen.Proofs.Tree.Lowering
import StubGen.Proofs.Model.Resolution
import StubGen.Proofs.Record.Locality
import StubGen.Proofs.Generator.Growth
import StubGen.Proofs.Command.Checking
import StubGen.Proofs.Discovery.Exclusion
import StubGen.Proofs.SyntaxError.Flagged
import StubGen.Proofs.Command.Generations
import StubGen.Proofs.Registry.Consistency
import StubGen.Proofs.Annotated.Location
import StubGen.Proofs.Record.Passing
import StubGen.Proofs.Concrete.Parameters
import StubGen.Proofs.Concrete.Sequence
import StubGen.Proofs.Concrete.Splicing
import StubGen.Proofs.Tree.Transparency
import StubGen.Proofs.Model.SpecialTypes
import StubGen.Proofs.Concrete.Written
import StubGen.Proofs.Generator.Conversation
import StubGen.Proofs.Host.Isolation
import StubGen.Proofs.Host.Reuse
import StubGen.Proofs.Record.Verbatim
import StubGen.Proofs.Fragment.Scheme
import StubGen.Proofs.Tree.Walking
import StubGen.Proofs.Registry.Failure
import StubGen.Proofs.SyntaxError.FalseReport
import StubGen.Proofs.Command.Failing
import StubGen.Proofs.Discovery.Listing
import StubGen.Proofs.Tree.Naming
import StubGen.Proofs.Fragment.Slots
import StubGen.Proofs.Model.Enclosure
import StubGen.Proofs.Tree.Links
import StubGen.Proofs.Tree.Lowered
import StubGen.Proofs.Namespace.Display
import StubGen.Proofs.Host.FileOrder
import StubGen.Proofs.Tree.Creation

import StubGen.Fragment
import StubGen.Fragment.FileName
import StubGen.GeneratorError
import StubGen.Record

/-!
# Fragments for stubs

The fragment that completes the greeting stub of a type, and the fragments that complete
the methods of a batch of records.
-/

namespace StubGen

/-- The namespace of every greeting stub. -/
def greetingsNamespace : String := "SourceGeneratorSample.Greetings"

/-- The documentation of a completed greeting stub. -/
def greetingDocs : List String :=
  ["/// <summary>", "/// 和固定的人打招呼。", "/// </summary>",
    "/// <param name=\"name\">表示对谁打招呼。指定一个字符串，表示其人的名字。</param>"]

namespace Fragment

/-- The fragment that completes the greeting stub of a type. -/
def ofTargetType (typeName suffix : String) : Fragment where
  hintName := FileName.ofType typeName suffix
  sourceText :=
    ({ inNamespace := greetingsNamespace
       typeKeyword := "class"
       typeName := typeName
       methodDocs := greetingDocs
       modifiers := "public static partial"
       methodName := targetMethod
       parameterName := "name" } : Template).render

end Fragment

/-- A namespace as it is written in a fragment: in full, without the root mark. -/
def Namespace.emitted (n : Namespace) : String := withoutRootMark n.fullDisplay

/-- The keyword that reopens a type of the given kind. -/
def TypeKind.partialKeyword (kind : TypeKind) (typeName : String) :
    Except GeneratorError String :=
  match kind with
  | .classKind => .ok "class"
  | .structKind => .ok "struct"
  | .interfaceKind => .ok "interface"
  | .enumKind => .error (.unsupportedTypeKind typeName .enumKind)
  | .delegateKind => .error (.unsupportedTypeKind typeName .delegateKind)

namespace Record

/-- The slots of the fragment of a record, given the keyword of its type. -/
def template (r : Record) (typeKeyword : String) : Template where
  inNamespace := r.inNamespace.emitted
  typeKeyword := typeKeyword
  typeName := r.typeName
  modifiers := r.modifiers.text
  methodName := r.memberName
  parameterName := r.parameterName

/-- The fragment of a record under the given file name. -/
def fragment (r : Record) (hintName : String) : Except GeneratorError Fragment :=
  (r.typeKind.partialKeyword r.typeName).map fun typeKeyword =>
    { hintName := hintName, sourceText := (r.template typeKeyword).render }

/-- The request for the file name of a record's fragment. -/
def nameRequest (r : Record) (suffix : String) : NameRequest where
  typeName := r.typeName
  memberName := r.memberName
  suffix := suffix

end Record

namespace Batch

/-- The fragments of records that are to have the given file names, or the first failure. -/
def fragmentsNamed : List Record → List String → Except GeneratorError (List Fragment)
  | r :: records, hintName :: names => do
    let fragment ← r.fragment hintName
    let rest ← fragmentsNamed records names
    .ok (fragment :: rest)
  | _, _ => .ok []

/-- The file names of a batch's fragments. -/
def fileNames (b : Batch) (suffix : String) : List String :=
  FileName.allocate [] (b.map fun r => Record.nameRequest r suffix)

/-- The fragments of a batch under names of their own, or the first failure. -/
def fragments (b : Batch) (suffix : String) : Except GeneratorError (List Fragment) :=
  fragmentsNamed b (b.fileNames suffix)

end Batch

end StubGen

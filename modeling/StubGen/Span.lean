/-!
# Files and byte spans

A span is a half-open range of byte offsets. Offsets are kept in 32 bits: what lies past
the largest one is recorded as the largest one.
-/

namespace StubGen

/-- The number under which a source file is known. -/
structure FileId where
  /-- Counted without a limit. Numbers of 32 bits are the same for fewer than `2 ^ 32`
  registrations. -/
  index : Nat
deriving DecidableEq, Repr, Inhabited

/-- A file number in messages. -/
def FileId.display (file : FileId) : String :=
  "file#" ++ toString file.index

/-- A half-open range of byte offsets. -/
structure Span where
  start : Nat := 0
  stop : Nat := 0
deriving DecidableEq, Repr, Inhabited

namespace Span

/-- The largest offset that a span records. -/
def largestOffset : Nat := 4294967295

/-- The span between two offsets, each clamped to the largest recorded offset. -/
def ofOffsets (start stop : Nat) : Span :=
  ⟨min start largestOffset, min stop largestOffset⟩

/-- The number of bytes covered. A span that ends before it starts covers none. -/
def length (s : Span) : Nat := s.stop - s.start

/-- Whether the span covers no byte. -/
def isEmpty (s : Span) : Bool := s.stop ≤ s.start

/-- From the smaller start to the larger end. -/
def cover (a b : Span) : Span :=
  ⟨min a.start b.start, max a.stop b.stop⟩

/-- Offsets keep their order when they are clamped. -/
theorem ofOffsets_start_le {a b c d : Nat} (h : a ≤ b) :
    (ofOffsets a c).start ≤ (ofOffsets b d).start := by
  simp only [ofOffsets]
  omega

end Span

/-- A span together with its file. -/
structure FileSpan where
  file : FileId
  span : Span
deriving DecidableEq, Repr, Inhabited

end StubGen

import Mathlib.Data.String.Basic
import StubGen.Text.Slice

/-!
# Slices between character boundaries

A slice between two character boundaries of a text, in order, never fails: the text is cut in
three there, and the slice is the part in the middle, byte for byte.
-/

namespace StubGen.Text

/-- An offset of the text at which no character is cut in two. -/
def IsBoundary (s : String) (offset : Nat) : Prop :=
  ∃ before after, s = before ++ after ∧ before.utf8ByteSize = offset

/-- The bytes of the text from `start` on and up to `stop` are those of `part`. -/
def IsSlice (s : String) (start stop : Nat) (part : String) : Prop :=
  ∃ before after, s = before ++ part ++ after ∧ before.utf8ByteSize = start ∧
    (before ++ part).utf8ByteSize = stop

variable {s part : String} {start stop : Nat}

/-- The bytes of a text are those of its characters. -/
theorem utf8Len_toList (s : String) : String.utf8Len s.toList = s.utf8ByteSize := by
  rw [← String.utf8ByteSize_ofList, String.ofList_toList]

/-- A first character has at least one of the bytes, and the others belong to the rest. -/
theorem exists_utf8Len_cons (c : Char) (cs : List Char) :
    ∃ n, String.utf8Len (c :: cs) = n + 1 ∧ c.utf8Size ≤ n + 1 ∧
      n + 1 - c.utf8Size = String.utf8Len cs := by
  have hpos := c.utf8Size_pos
  refine ⟨String.utf8Len cs + c.utf8Size - 1, ?_, ?_, ?_⟩
  · rw [String.utf8Len]
    omega
  · omega
  · omega

/-- Dropping the bytes of the first characters leaves the others. -/
theorem dropBytes_append (first rest : List Char) :
    dropBytes (first ++ rest) (String.utf8Len first) = some rest := by
  induction first with
  | nil => cases rest <;> rfl
  | cons c first ih =>
    obtain ⟨n, hn, hle, hrest⟩ := exists_utf8Len_cons c first
    rw [hn, List.cons_append, dropBytes, if_pos hle, hrest, ih]

/-- What is left after dropping some bytes follows the characters of these bytes. -/
theorem exists_append_of_dropBytes {cs rest : List Char} {n : Nat}
    (h : dropBytes cs n = some rest) :
    ∃ first, cs = first ++ rest ∧ String.utf8Len first = n := by
  induction cs generalizing n with
  | nil =>
    cases n with
    | zero => exact ⟨[], (Option.some.inj h), rfl⟩
    | succ n => simp [dropBytes] at h
  | cons c cs ih =>
    cases n with
    | zero => exact ⟨[], (Option.some.inj h), rfl⟩
    | succ n =>
      rw [dropBytes] at h
      split at h
      · rename_i hle
        obtain ⟨first, rfl, hfirst⟩ := ih h
        refine ⟨c :: first, rfl, ?_⟩
        rw [String.utf8Len, hfirst]
        omega
      · simp at h

/-- An offset is a boundary exactly if that many bytes can be dropped. -/
theorem isBoundary_iff {offset : Nat} :
    IsBoundary s offset ↔ (dropBytes s.toList offset).isSome = true := by
  constructor
  · intro h
    obtain ⟨before, after, rfl, rfl⟩ := h
    rw [String.toList_append, ← utf8Len_toList, dropBytes_append]
    rfl
  · intro h
    obtain ⟨rest, hrest⟩ := Option.isSome_iff_exists.mp h
    obtain ⟨first, hfirst, hbytes⟩ := exists_append_of_dropBytes hrest
    refine ⟨String.ofList first, String.ofList rest, ?_, ?_⟩
    · rw [← String.ofList_append, ← hfirst, String.ofList_toList]
    · rw [String.utf8ByteSize_ofList, hbytes]

instance (s : String) (offset : Nat) : Decidable (IsBoundary s offset) :=
  decidable_of_iff _ isBoundary_iff.symm

/-- Taking the bytes of the first characters gives these. -/
theorem takeBytes_append (first rest : List Char) :
    takeBytes (first ++ rest) (String.utf8Len first) = some first := by
  induction first with
  | nil => cases rest <;> rfl
  | cons c first ih =>
    obtain ⟨n, hn, hle, hrest⟩ := exists_utf8Len_cons c first
    rw [hn, List.cons_append, takeBytes, if_pos hle, hrest, ih, Option.map_some]

/-- What some bytes are taken from starts with the characters of these bytes. -/
theorem exists_append_of_takeBytes {cs first : List Char} {n : Nat}
    (h : takeBytes cs n = some first) :
    ∃ rest, cs = first ++ rest ∧ String.utf8Len first = n := by
  induction cs generalizing n first with
  | nil =>
    cases n with
    | zero =>
      obtain rfl := Option.some.inj h
      exact ⟨[], rfl, rfl⟩
    | succ n => simp [takeBytes] at h
  | cons c cs ih =>
    cases n with
    | zero =>
      obtain rfl := Option.some.inj h
      exact ⟨c :: cs, rfl, rfl⟩
    | succ n =>
      rw [takeBytes] at h
      split at h
      · rename_i hle
        obtain ⟨others, hothers, rfl⟩ := Option.map_eq_some_iff.mp h
        obtain ⟨rest, rfl, hbytes⟩ := ih hothers
        refine ⟨rest, rfl, ?_⟩
        rw [String.utf8Len, hbytes]
        omega
      · simp at h

/-- The characters of a slice. -/
theorem slice?_of_isSlice (h : IsSlice s start stop part) :
    slice? s start stop = some part.toList := by
  obtain ⟨before, after, rfl, rfl, rfl⟩ := h
  rw [String.utf8ByteSize_append]
  have hlength : before.utf8ByteSize + part.utf8ByteSize - before.utf8ByteSize =
      String.utf8Len part.toList := by
    rw [utf8Len_toList]
    omega
  rw [slice?, if_pos (by omega), hlength, ← utf8Len_toList before, String.toList_append,
    String.toList_append, List.append_assoc, dropBytes_append, Option.bind_some,
    takeBytes_append]

/-- What is found as a slice is one. -/
theorem isSlice_of_slice? {chars : List Char} (h : slice? s start stop = some chars) :
    IsSlice s start stop (String.ofList chars) := by
  rw [slice?] at h
  split at h
  · rename_i hle
    obtain ⟨onward, honward, hchars⟩ := Option.bind_eq_some_iff.mp h
    obtain ⟨before, htext, hstart⟩ := exists_append_of_dropBytes honward
    obtain ⟨after, rfl, hlength⟩ := exists_append_of_takeBytes hchars
    refine ⟨String.ofList before, String.ofList after, ?_, ?_, ?_⟩
    · rw [← String.ofList_append, ← String.ofList_append, List.append_assoc, ← htext,
        String.ofList_toList]
    · rw [String.utf8ByteSize_ofList, hstart]
    · rw [String.utf8ByteSize_append, String.utf8ByteSize_ofList, String.utf8ByteSize_ofList,
        hstart, hlength]
      omega
  · simp at h

/-- A slice starts at a boundary. -/
theorem IsSlice.isBoundary_start (h : IsSlice s start stop part) : IsBoundary s start := by
  obtain ⟨before, after, rfl, hstart, -⟩ := h
  exact ⟨before, part ++ after, String.append_assoc, hstart⟩

/-- A slice stops within the text. -/
theorem IsSlice.stop_le (h : IsSlice s start stop part) : stop ≤ s.utf8ByteSize := by
  obtain ⟨before, after, rfl, -, rfl⟩ := h
  simp only [String.utf8ByteSize_append]
  omega

/-- A part of a slice is a slice. -/
theorem IsSlice.inner {first inner last : String}
    (h : IsSlice s start stop (first ++ inner ++ last)) :
    IsSlice s (start + first.utf8ByteSize) (start + first.utf8ByteSize + inner.utf8ByteSize)
        inner ∧
      start + first.utf8ByteSize + inner.utf8ByteSize ≤ stop := by
  obtain ⟨before, after, rfl, rfl, rfl⟩ := h
  refine ⟨⟨before ++ first, last ++ after, ?_, ?_, ?_⟩, ?_⟩
  · simp only [String.append_assoc]
  · rw [String.utf8ByteSize_append]
  · rw [String.utf8ByteSize_append, String.utf8ByteSize_append]
  · simp only [String.utf8ByteSize_append]
    omega

/-- There is a slice between any two boundaries in order. -/
theorem IsBoundary.exists_isSlice (hstart : IsBoundary s start) (hstop : IsBoundary s stop)
    (hle : start ≤ stop) : ∃ part, IsSlice s start stop part := by
  obtain ⟨before, rest, rfl, rfl⟩ := hstart
  obtain ⟨both, after, heq, rfl⟩ := hstop
  have hchars := congrArg String.toList heq
  rw [String.toList_append, String.toList_append, List.append_eq_append_iff] at hchars
  rcases hchars with ⟨part, hboth, hrest⟩ | ⟨more, hbefore, -⟩
  · obtain rfl : both = before ++ String.ofList part := String.toList_inj.mp (by simp [hboth])
    obtain rfl : rest = String.ofList part ++ after := String.toList_inj.mp (by simp [hrest])
    exact ⟨String.ofList part, before, after, by rw [String.append_assoc], rfl, rfl⟩
  · -- The second boundary is not before the first one, so both are the same.
    obtain rfl : before = both ++ String.ofList more := String.toList_inj.mp (by simp [hbefore])
    have hnone : (String.ofList more).utf8ByteSize = 0 := by
      rw [String.utf8ByteSize_append] at hle
      omega
    rw [String.utf8ByteSize_eq_zero_iff.mp hnone, String.append_empty]
    exact ⟨"", both, rest, by rw [String.append_empty], rfl, by rw [String.append_empty]⟩

/-- Slices between boundaries never fail. -/
theorem IsBoundary.exists_slice?_eq (hstart : IsBoundary s start) (hstop : IsBoundary s stop)
    (hle : start ≤ stop) :
    ∃ part, IsSlice s start stop part ∧ slice? s start stop = some part.toList := by
  obtain ⟨part, hpart⟩ := hstart.exists_isSlice hstop hle
  exact ⟨part, hpart, slice?_of_isSlice hpart⟩

end StubGen.Text

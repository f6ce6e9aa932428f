import StubGen.Proofs.SyntaxError.Flagged
import StubGen.Proofs.Text.Slices

/-!
# Unclosed delimiters

A flagged node is reported as an unclosed delimiter if its place in the tree makes one suspect,
and if the text of its parent holds the opening character of that delimiter. An error node is
suspect for the kind of its parent, a missing node for its own kind.

The opening character is searched in the parent's text, which exists only if the parent's range
cuts no character in two and ends within the source. So what is found is a place in the source.
-/

namespace StubGen

namespace Delimiter

/-- The delimiters that may be missing their closing character. -/
def all : List Delimiter := [round, curly, square]

/-- The text of the closing character, which is the kind of its nodes. -/
def closingText (d : Delimiter) : String := String.singleton d.closing

/-- A flagged node inside a parent makes a delimiter suspect of being unclosed: an error node in
a list of parameters or arguments, an error node in a list of members or a block, and a missing
closing character. -/
inductive Suspect (parent node : ConcreteNode) : Delimiter → Prop
  | inBrackets (herror : node.isError = true)
      (hkind : parent.kind = "parameter_list" ∨ parent.kind = "argument_list") :
      Suspect parent node round
  | inBraces (herror : node.isError = true)
      (hkind : parent.kind = "declaration_list" ∨ parent.kind = "block") :
      Suspect parent node curly
  | missing {d : Delimiter} (hnoError : node.isError = false) (hmissing : node.isMissing = true)
      (hd : d ∈ all) (hkind : node.kind = d.closingText) : Suspect parent node d

/-- A place is where a delimiter is opened first in the text of a node: a single byte between the
ends of the node, with which a character of the source starts, and this is the opening character
and the first one in the text of the node. -/
structure OpensAt (d : Delimiter) (source : String) (node : ConcreteNode) (place : Stretch) :
    Prop where
  length_eq : place.length = 1
  start_le : node.start ≤ place.offset
  le_stop : place.offset + place.length ≤ node.stop
  stop_le : node.stop ≤ source.utf8ByteSize
  boundary : Text.IsBoundary source place.offset
  written : Text.IsSlice source place.offset (place.offset + place.length)
    (String.singleton d.opening)
  first : ∃ before after,
    Text.IsSlice source node.start node.stop (before ++ String.singleton d.opening ++ after) ∧
      d.opening ∉ before.toList ∧ place.offset = node.start + before.utf8ByteSize

variable {d : Delimiter} {parent node : ConcreteNode}

/-- A token closes the delimiter whose closing character it is. -/
theorem closedBy?_eq_some_iff {token : String} :
    closedBy? token = some d ↔ d ∈ all ∧ token = d.closingText := by
  have hdifferent : ∀ d ∈ all, closedBy? d.closingText = some d := by decide
  constructor
  · intro h
    rw [closedBy?] at h
    have htext := List.find?_some h
    exact ⟨List.mem_of_find?_eq_some h, (beq_iff_eq.mp htext).symm⟩
  · rintro ⟨hd, rfl⟩
    exact hdifferent d hd

/-- The delimiters are opened by characters of one byte. -/
theorem utf8ByteSize_opening (hd : d ∈ all) : (String.singleton d.opening).utf8ByteSize = 1 := by
  revert d
  decide

/-- A suspect delimiter is one of the three. -/
theorem Suspect.mem_all (h : Suspect parent node d) : d ∈ all := by
  cases h with
  | inBrackets => exact List.mem_cons_self
  | inBraces => exact List.mem_cons_of_mem _ List.mem_cons_self
  | missing _ _ hd _ => exact hd

end Delimiter

namespace SyntaxError

variable {source : String} {node : ConcreteNode}

/-- The bytes before the first occurrence of a character are those of the characters before it. -/
theorem exists_append_of_bytesBefore? {c : Char} {chars : List Char} {count : Nat}
    (h : bytesBefore? c chars = some count) :
    ∃ before after, chars = before ++ c :: after ∧ c ∉ before ∧
      String.utf8Len before = count := by
  induction chars generalizing count with
  | nil => simp [bytesBefore?] at h
  | cons d rest ih =>
    rw [bytesBefore?] at h
    by_cases hdc : d = c
    · rw [if_pos hdc] at h
      obtain rfl := Option.some.inj h
      exact ⟨[], rest, by rw [hdc, List.nil_append], List.not_mem_nil, rfl⟩
    · rw [if_neg hdc] at h
      obtain ⟨later, hlater, rfl⟩ := Option.map_eq_some_iff.mp h
      obtain ⟨before, after, rfl, hnew, rfl⟩ := ih hlater
      refine ⟨d :: before, after, rfl, ?_, ?_⟩
      · exact List.not_mem_cons_of_ne_of_not_mem (Ne.symm hdc) hnew
      · rw [String.utf8Len, Nat.add_comm]

/-- A character is found exactly if it is there. -/
theorem bytesBefore?_isSome_iff {c : Char} {chars : List Char} :
    (bytesBefore? c chars).isSome = true ↔ c ∈ chars := by
  induction chars with
  | nil => simp [bytesBefore?]
  | cons d rest ih =>
    rw [bytesBefore?]
    by_cases hdc : d = c
    · rw [if_pos hdc]
      exact iff_of_true rfl (hdc ▸ List.mem_cons_self)
    · rw [if_neg hdc, Option.isSome_map, ih, List.mem_cons]
      exact (or_iff_right (Ne.symm hdc)).symm

/-- What is found is where the delimiter is opened. -/
theorem opensAt_of_findIn? {d : Delimiter} (hd : d ∈ Delimiter.all) {place : Stretch}
    (h : findIn? source node d.opening = some place) : d.OpensAt source node place := by
  obtain ⟨chars, hslice, hfound⟩ := Option.bind_eq_some_iff.mp h
  obtain ⟨count, hcount, hplace⟩ := Option.bind_eq_some_iff.mp hfound
  obtain rfl := Option.some.inj hplace
  obtain ⟨before, after, rfl, hnew, rfl⟩ := exists_append_of_bytesBefore? hcount
  have hsplit : String.ofList (before ++ d.opening :: after) =
      String.ofList before ++ String.singleton d.opening ++ String.ofList after := by
    rw [List.append_cons, String.ofList_append, String.ofList_append, String.singleton_eq_ofList]
  have hnode := Text.isSlice_of_slice? hslice
  rw [hsplit] at hnode
  obtain ⟨hwritten, hle⟩ := hnode.inner
  rw [Delimiter.utf8ByteSize_opening hd, String.utf8ByteSize_ofList] at hwritten hle
  exact
    { length_eq := rfl
      start_le := Nat.le_add_right _ _
      le_stop := hle
      stop_le := hnode.stop_le
      boundary := hwritten.isBoundary_start
      written := hwritten
      first := ⟨String.ofList before, String.ofList after, hnode, by rwa [String.toList_ofList],
        by rw [String.utf8ByteSize_ofList]⟩ }

/-- A suspect delimiter whose opening character is found is reported. -/
theorem ofFlagged_of_suspect {d : Delimiter} {parent : ConcreteNode} {opening : Stretch}
    (h : d.Suspect parent node) (hfound : findIn? source parent d.opening = some opening) :
    ∃ close, ofFlagged source (some parent) node =
      .unclosedDelimiter d opening close (.input source) := by
  cases h with
  | inBrackets herror hkind =>
    rw [ofFlagged, if_pos herror, ofErrorNode]
    dsimp only
    rw [if_pos (by simpa using hkind), hfound]
    exact ⟨_, rfl⟩
  | inBraces herror hkind =>
    rw [ofFlagged, if_pos herror, ofErrorNode]
    dsimp only
    rw [if_neg (by rcases hkind with h | h <;> simp [h]), if_pos (by simpa using hkind), hfound]
    exact ⟨_, rfl⟩
  | missing hnoError hmissing hd hkind =>
    rw [ofFlagged, if_neg (by simp [hnoError]), ofMissingNode,
      Delimiter.closedBy?_eq_some_iff.mpr ⟨hd, hkind⟩]
    simp only [Option.bind_eq_bind, Option.bind_some, hfound]
    exact ⟨_, rfl⟩

/-- For an error node only a suspect delimiter is reported, and only with its opening character in
the text of the parent. -/
theorem suspect_of_ofErrorNode {parent? : Option ConcreteNode} {d : Delimiter}
    {opening close : Stretch} {named : NamedSource} (herror : node.isError = true)
    (h : ofErrorNode source parent? node = .unclosedDelimiter d opening close named) :
    ∃ parent, parent? = some parent ∧ d.Suspect parent node ∧
      findIn? source parent d.opening = some opening := by
  -- A search that fails gives an error of another shape.
  have hfound {parent : ConcreteNode} {suspect : Delimiter} {place : Stretch}
      {other : SyntaxError} (hother : ∀ d o c s, other ≠ .unclosedDelimiter d o c s)
      (hreport : ((findIn? source parent suspect.opening).map fun o =>
          unclosedDelimiter suspect o place (.input source)).getD other =
        .unclosedDelimiter d opening close named) :
      suspect = d ∧ findIn? source parent d.opening = some opening := by
    cases hfind : findIn? source parent suspect.opening with
    | none =>
      rw [hfind] at hreport
      exact absurd hreport (hother _ _ _ _)
    | some o =>
      rw [hfind] at hreport
      obtain ⟨rfl, rfl, -, -⟩ := SyntaxError.unclosedDelimiter.inj hreport
      exact ⟨rfl, hfind⟩
  cases parent? with
  | none => simp [ofErrorNode, ofUnexpected] at h
  | some parent =>
    rw [ofErrorNode] at h
    dsimp only at h
    split at h
    · rename_i hkind
      obtain ⟨rfl, hfind⟩ := hfound (by simp [ofUnexpected]) h
      exact ⟨parent, rfl, .inBrackets herror (by simpa using hkind), hfind⟩
    · split at h
      · rename_i hkind
        obtain ⟨rfl, hfind⟩ := hfound (by simp) h
        exact ⟨parent, rfl, .inBraces herror (by simpa using hkind), hfind⟩
      · split at h <;> simp [ofUnexpected] at h

/-- For a missing node only the delimiter is reported that the node would close, and only with its
opening character in the text of the parent. -/
theorem suspect_of_ofMissingNode {parent? : Option ConcreteNode} {d : Delimiter}
    {opening close : Stretch} {named : NamedSource} (hnoError : node.isError = false)
    (hmissing : node.isMissing = true)
    (h : ofMissingNode source parent? node = .unclosedDelimiter d opening close named) :
    ∃ parent, parent? = some parent ∧ d.Suspect parent node ∧
      findIn? source parent d.opening = some opening := by
  rw [ofMissingNode] at h
  cases hclosed : Delimiter.closedBy? node.kind with
  | none => simp [hclosed] at h
  | some suspect =>
    cases parent? with
    | none => simp [hclosed] at h
    | some parent =>
      cases hfind : findIn? source parent suspect.opening with
      | none => simp [hclosed, hfind] at h
      | some place =>
        simp only [hclosed, hfind, Option.bind_eq_bind, Option.bind_some, Option.getD_some,
          unclosedDelimiter.injEq] at h
        obtain ⟨rfl, rfl, -, -⟩ := h
        obtain ⟨hd, hkind⟩ := Delimiter.closedBy?_eq_some_iff.mp hclosed
        exact ⟨parent, rfl, .missing hnoError hmissing hd hkind, hfind⟩

/-- For a flagged node only a suspect delimiter is reported, and only with its opening character
in the text of the parent. -/
theorem suspect_of_ofFlagged {parent? : Option ConcreteNode} {d : Delimiter}
    {opening close : Stretch} {named : NamedSource} (hflagged : node.flagged = true)
    (h : ofFlagged source parent? node = .unclosedDelimiter d opening close named) :
    ∃ parent, parent? = some parent ∧ d.Suspect parent node ∧
      findIn? source parent d.opening = some opening := by
  rw [ofFlagged] at h
  cases herror : node.isError with
  | true =>
    rw [if_pos herror] at h
    exact suspect_of_ofErrorNode herror h
  | false =>
    have hmissing : node.isMissing = true := by
      rwa [ConcreteNode.flagged, herror, Bool.false_or] at hflagged
    rw [if_neg (by simp [herror])] at h
    exact suspect_of_ofMissingNode herror hmissing h

end SyntaxError

namespace Parsed

/-- Parsing reports one error for each flagged node, and where this error is an unclosed
delimiter, its opening and closing character are a pair, the node has a parent, and the place of
the opening character is real: one byte inside the parent and inside the source, at the start of
a character, which is the opening character and the first such character in the text of the
parent. So a parent whose range cuts a character in two, or does not end within the source, never
gives such an error. -/
theorem unclosed_opening_located (file : FileId) (source : String) (c : Concrete) :
    (ofConcrete file source c).errors =
        c.flaggedNodes.map (fun n => SyntaxError.ofFlagged source n.1 n.2) ∧
      ∀ n ∈ c.flaggedNodes, ∀ d opening close named,
        SyntaxError.ofFlagged source n.1 n.2 = .unclosedDelimiter d opening close named →
          (d.opening, d.closing) ∈ [('(', ')'), ('\x7b', '\x7d'), ('[', ']')] ∧
            ∃ parent, n.1 = some parent ∧ d.OpensAt source parent opening := by
  refine ⟨SyntaxError.ofConcrete_eq source c, fun n hn d opening close named hreport => ?_⟩
  obtain ⟨parent, hparent, hsuspect, hfound⟩ :=
    SyntaxError.suspect_of_ofFlagged (List.mem_filter.mp hn).2 hreport
  have hd := hsuspect.mem_all
  exact ⟨List.mem_map_of_mem (f := fun d : Delimiter => (d.opening, d.closing)) hd, parent,
    hparent, SyntaxError.opensAt_of_findIn? hd hfound⟩

/-- The closing bracket that is missing at the end of four bytes. -/
def missingBracket : ConcreteNode where
  kind := ")"
  named := false
  isError := false
  isMissing := true
  start := 4
  stop := 4
  field := none

/-- The text `Ä(x`, whose first character has two bytes, as a list that lacks its end. -/
def openList : Concrete where
  node :=
    { kind := "parameter_list", named := true, isError := false, isMissing := false, start := 0
      stop := 4, field := none }
  below := .cons { missingBracket with kind := "(", isMissing := false, start := 2, stop := 3 } .nil
    (.cons missingBracket .nil .nil)

/-- The opening character is located behind both bytes of the first character. -/
theorem unclosed_opening_located_openList :
    (some openList.node, missingBracket) ∈ openList.flaggedNodes ∧
      SyntaxError.ofFlagged "Ä(x" (some openList.node) missingBracket =
        .unclosedDelimiter .round ⟨2, 1⟩ ⟨4, 1⟩ (.input "Ä(x") ∧
      Delimiter.round.OpensAt "Ä(x" openList.node ⟨2, 1⟩ := by
  have hflagged : (some openList.node, missingBracket) ∈ openList.flaggedNodes := by
    decide +kernel
  have hreport : SyntaxError.ofFlagged "Ä(x" (some openList.node) missingBracket =
      .unclosedDelimiter .round ⟨2, 1⟩ ⟨4, 1⟩ (.input "Ä(x") := by decide +kernel
  obtain ⟨-, hlocated⟩ := unclosed_opening_located ⟨0⟩ "Ä(x" openList
  obtain ⟨-, parent, hparent, hopens⟩ := hlocated _ hflagged _ _ _ _ hreport
  obtain rfl := Option.some.inj hparent
  exact ⟨hflagged, hreport, hopens⟩

end Parsed

end StubGen

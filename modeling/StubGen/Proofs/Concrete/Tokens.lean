import StubGen.Concrete
import StubGen.Proofs.Text.Slices

/-!
# Tokens and what they spell

The tokens of a concrete tree are its nodes with nothing below them, comments included. If only
blanks stand outside the tokens of a node, its text without blanks is what the tokens spell. So the
spacing between them does not show in it, but a comment does: it is written with a slash, and the
slashes of what is spelled are those of the tokens.
-/

namespace StubGen

/-- The labels of a sequence that have nothing below them, in order. -/
def Forest.leaves {α : Type} : Forest α → List α
  | nil => []
  | cons label nil rest => label :: rest.leaves
  | cons _ (cons first below others) rest => (cons first below others).leaves ++ rest.leaves

namespace Text

variable {s part more : String} {start middle stop : Nat}

/-- Slices that meet are one slice. -/
theorem IsSlice.append (h : IsSlice s start middle part) (h' : IsSlice s middle stop more) :
    IsSlice s start stop (part ++ more) := by
  obtain ⟨before, after, hs, rfl, hmiddle⟩ := h
  obtain ⟨before', after', hs', hmiddle', rfl⟩ := h'
  have hdrop : dropBytes s.toList middle = some after.toList := by
    rw [hs, String.toList_append, ← hmiddle, ← utf8Len_toList, dropBytes_append]
  have hdrop' : dropBytes s.toList middle = some (more ++ after').toList := by
    rw [hs', String.append_assoc, String.toList_append, ← hmiddle', ← utf8Len_toList,
      dropBytes_append]
  have hafter : after = more ++ after' :=
    String.toList_inj.mp (Option.some.inj (hdrop.symm.trans hdrop'))
  refine ⟨before, after', ?_, rfl, ?_⟩
  · rw [hs, hafter]
    simp only [String.append_assoc]
  · simp only [String.utf8ByteSize_append] at hmiddle ⊢
    omega

/-- The text of a slice. -/
theorem IsSlice.slice_eq (h : IsSlice s start stop part) : slice s start stop = part := by
  rw [slice, slice?_of_isSlice h, Option.map_some, Option.getD_some, String.ofList_toList]

/-- Blanks are removed from each part of a text. -/
theorem compact_append (first second : String) :
    compact (first ++ second) = compact first ++ compact second := by
  simp only [compact, String.toList_append, List.filter_append, String.ofList_append]

/-- Blanks are removed from each of the texts that are put together. -/
theorem compact_join (texts : List String) :
    compact (String.join texts) = String.join (texts.map compact) := by
  induction texts with
  | nil => rfl
  | cons first rest ih => rw [String.join_cons, compact_append, ih, List.map_cons, String.join_cons]

/-- There are only blanks from one offset of the text to another. -/
def BlankBetween (s : String) (start stop : Nat) : Prop :=
  ∃ chars, slice? s start stop = some chars ∧ ∀ ch ∈ chars, isBlank ch = true

instance (s : String) (start stop : Nat) : Decidable (BlankBetween s start stop) :=
  decidable_of_iff ((slice? s start stop).any (·.all isBlank) = true) (by
    simp [BlankBetween, Option.any_eq_true])

/-- What stands there is a slice of which nothing is left without the blanks. -/
theorem BlankBetween.exists_isSlice (h : BlankBetween s start stop) :
    ∃ gap, IsSlice s start stop gap ∧ compact gap = "" := by
  obtain ⟨chars, hchars, hblank⟩ := h
  refine ⟨String.ofList chars, isSlice_of_slice? hchars, ?_⟩
  have hnone : chars.filter (fun ch => !isBlank ch) = [] :=
    List.filter_eq_nil_iff.mpr fun ch hch => by simp [hblank ch hch]
  rw [compact, String.toList_ofList, hnone, String.ofList_nil]

/-- How often a text holds the character with which comments begin. -/
def slashes (s : String) : Nat := s.toList.count '/'

/-- Slashes are counted part by part. -/
theorem slashes_append (first second : String) :
    slashes (first ++ second) = slashes first + slashes second := by
  rw [slashes, String.toList_append, List.count_append]
  rfl

/-- Removing the blanks keeps the slashes. -/
theorem slashes_compact (s : String) : slashes (compact s) = slashes s := by
  rw [slashes, compact, String.toList_ofList, List.count_filter (by decide)]
  rfl

end Text

/-- A comment. -/
def ConcreteNode.isComment (node : ConcreteNode) : Bool := node.kind == "comment"

namespace Concrete

/-- The tokens of a tree, in order. A node with nothing below it is a token itself. -/
def tokens (c : Concrete) : List ConcreteNode := (Forest.cons c.node c.below .nil).leaves

/-- What tokens spell: their texts one after the other, without blanks. -/
def spelled (source : String) (tokens : List ConcreteNode) : String :=
  Text.compact (String.join (tokens.map (·.text source)))

/-- The tokens stand one after the other up to `stop`, with only blanks before, between and after
them. -/
def Filled (source : String) (stop : Nat) : List ConcreteNode → Nat → Prop
  | [], start => Text.BlankBetween source start stop
  | token :: rest, start =>
    Text.BlankBetween source start token.start ∧
      (Text.slice? source token.start token.stop).isSome = true ∧
      Filled source stop rest token.stop

instance decidableFilled (source : String) (stop : Nat) :
    ∀ tokens start, Decidable (Filled source stop tokens start)
  | [], start => inferInstanceAs (Decidable (Text.BlankBetween source start stop))
  | token :: rest, start =>
    have := decidableFilled source stop rest token.stop
    inferInstanceAs (Decidable (Text.BlankBetween source start token.start ∧
      (Text.slice? source token.start token.stop).isSome = true ∧
      Filled source stop rest token.stop))

/-- A tree whose text is made up of its tokens and of blanks. Comments are written with a
slash. -/
structure IsTokenized (source : String) (c : Concrete) : Prop where
  filled : Filled source c.node.stop c.tokens c.node.start
  comments : ∀ token ∈ c.tokens, token.isComment = true → '/' ∈ (token.text source).toList

instance (source : String) (c : Concrete) : Decidable (c.IsTokenized source) :=
  decidable_of_iff (Filled source c.node.stop c.tokens c.node.start ∧
      ∀ token ∈ c.tokens, token.isComment = true → '/' ∈ (token.text source).toList)
    ⟨fun h => ⟨h.1, h.2⟩, fun h => ⟨h.filled, h.comments⟩⟩

variable {c : Concrete} {source : String} {tokens : List ConcreteNode} {start stop : Nat}

/-- Tokens spell what the first one spells and what the others spell. -/
theorem spelled_cons (source : String) (token : ConcreteNode) (rest : List ConcreteNode) :
    spelled source (token :: rest) = token.compactText source ++ spelled source rest := by
  rw [spelled, List.map_cons, String.join_cons, Text.compact_append]
  rfl

/-- What tokens spell is settled by what each of them spells. -/
theorem spelled_eq_join (source : String) (tokens : List ConcreteNode) :
    spelled source tokens = String.join (tokens.map (·.compactText source)) := by
  rw [spelled, Text.compact_join, List.map_map]
  rfl

/-- What is between two offsets is a slice. Without blanks it is what the tokens there spell. -/
theorem Filled.exists_isSlice (h : Filled source stop tokens start) :
    ∃ part, Text.IsSlice source start stop part ∧ Text.compact part = spelled source tokens := by
  induction tokens generalizing start with
  | nil => exact Text.BlankBetween.exists_isSlice h
  | cons token rest ih =>
    obtain ⟨hgap, htoken, hrest⟩ := h
    obtain ⟨gap, hgap, hblank⟩ := hgap.exists_isSlice
    obtain ⟨chars, hchars⟩ := Option.isSome_iff_exists.mp htoken
    have htext := Text.isSlice_of_slice? hchars
    obtain ⟨others, hothers, hspelled⟩ := ih hrest
    refine ⟨gap ++ (String.ofList chars ++ others), hgap.append (htext.append hothers), ?_⟩
    rw [Text.compact_append, hblank, Text.compact_append, hspelled, spelled_cons,
      ConcreteNode.compactText, ConcreteNode.text, htext.slice_eq]
    exact String.empty_append

/-- The text of a node without blanks is what its tokens spell. -/
theorem IsTokenized.compactText_eq (h : c.IsTokenized source) :
    c.node.compactText source = spelled source c.tokens := by
  obtain ⟨part, hpart, hspelled⟩ := h.filled.exists_isSlice
  rw [ConcreteNode.compactText, ConcreteNode.text, hpart.slice_eq, hspelled]

/-- The slashes of what is spelled come from the tokens that are kept and from the others. -/
theorem slashes_spelled_filter (keep : ConcreteNode → Bool) (tokens : List ConcreteNode) :
    Text.slashes (spelled source tokens) =
      Text.slashes (spelled source (tokens.filter keep)) +
        Text.slashes (spelled source (tokens.filter (!keep ·))) := by
  induction tokens with
  | nil => rfl
  | cons token rest ih =>
    rw [spelled_cons, Text.slashes_append, ih]
    by_cases hkeep : keep token = true
    · rw [List.filter_cons_of_pos hkeep, List.filter_cons_of_neg (by simp [hkeep]), spelled_cons,
        Text.slashes_append, Nat.add_assoc]
    · rw [List.filter_cons_of_neg hkeep, List.filter_cons_of_pos (by simpa using hkeep),
        spelled_cons, Text.slashes_append, Nat.add_left_comm]

/-- A token with a slash leaves one in what is spelled. -/
theorem slashes_spelled_pos {token : ConcreteNode} (htoken : token ∈ tokens)
    (hslash : '/' ∈ (token.text source).toList) : 0 < Text.slashes (spelled source tokens) := by
  have hjoined : '/' ∈ (String.join (tokens.map (·.text source))).toList := by
    rw [String.toList_join]
    exact List.mem_flatMap.mpr ⟨_, List.mem_map_of_mem htoken, hslash⟩
  rw [spelled, Text.slashes_compact, Text.slashes, List.count_pos_iff]
  exact hjoined

end Concrete

end StubGen

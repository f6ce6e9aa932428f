import Mathlib.Data.List.Forall2
import StubGen.Proofs.Json.Scalars

/-!
# Items between brackets are read back

Items are written between brackets, each on a line of its own. Indentation and line breaks are
blanks to the reader, which it takes around every item.
-/

namespace StubGen

/-- Joined texts, character by character. -/
theorem Text.toList_joined_cons (sep first : String) (others : List String) :
    (joined sep (first :: others)).toList =
      first.toList ++ others.flatMap fun s => sep.toList ++ s.toList := by
  induction others generalizing first with
  | nil => rw [joined, List.flatMap_nil, List.append_nil]
  | cons second others ih =>
    rw [joined, String.toList_append, String.toList_append, ih, List.flatMap_cons,
      List.append_assoc, List.append_assoc]
    exact fun h => List.cons_ne_nil _ _ h

/-- Every text is at most as long as the joined texts. -/
theorem Text.length_le_joined (sep : String) {texts : List String} {s : String} (h : s ∈ texts) :
    s.length ≤ (joined sep texts).length := by
  induction texts with
  | nil => contradiction
  | cons first others ih =>
    cases others with
    | nil =>
      obtain rfl := List.mem_singleton.mp h
      exact Nat.le_refl _
    | cons second others =>
      rw [joined, String.length_append, String.length_append]
      · rcases List.mem_cons.mp h with rfl | hlater
        · omega
        · have := ih hlater
          omega
      · exact fun h => List.cons_ne_nil _ _ h

namespace Json

open Text Text.Reader

variable {α : Type} {item : Reader α} {rest before after : List Char} {written : String} {a : α}
  {left right : Char}

/-! ## Blanks -/

/-- Blanks are taken up to where there is none. -/
theorem takes_blanks (hbefore : ∀ c ∈ before, isBlank c = true)
    (hrest : ∀ c ∈ rest.head?, isBlank c = false) : Takes blanks before () rest := by
  rw [Takes, blanks, bind_apply, takes_run hbefore hrest]
  rfl

/-- A value may end before a blank. -/
theorem ends_of_blanks (hbefore : ∀ c ∈ before, isBlank c = true) (hrest : Ends rest) :
    Ends (before ++ rest) := by
  cases before with
  | nil => exact hrest
  | cons d ds =>
    intro c hc
    obtain rfl : d = c := by simpa using hc
    have hd := hbefore d List.mem_cons_self
    simp only [isBlank, Bool.or_eq_true, beq_iff_eq] at hd
    rcases hd with ((rfl | rfl) | rfl) | rfl <;> decide

/-- Lines start with blanks. -/
theorem isBlank_of_mem_lineStart {level : Nat} {c : Char} (h : c ∈ (lineStart level).toList) :
    isBlank c = true := by
  rw [lineStart, String.toList_ofList] at h
  rcases List.mem_cons.mp h with rfl | hspace
  · decide
  · rw [List.eq_of_mem_replicate hspace]
    decide

/-! ## Items between brackets -/

/-- Takes an item with blanks around it. -/
def spaced (item : Reader α) : Reader α := do
  blanks
  let a ← item
  blanks
  pure a

/-- Takes the closing bracket after the last item. -/
def closed (right : Char) (items : List α) : Reader (List α) := do
  blanks
  char right
  pure items

/-- Items between brackets are the first one and those that follow a comma. -/
theorem listed_eq (left right : Char) (item : Reader α) :
    listed left right item = (do
      char left
      match ← attempt (spaced item) with
      | none => closed right []
      | some a => do
        let others ← many (do char ','; spaced item)
        closed right (a :: others)) := rfl

/-- An item is taken off its text, which does not start with a blank, wherever a value may end. -/
structure TakesItem (item : Reader α) (written : String) (a : α) : Prop where
  head : ∃ c, written.toList.head? = some c ∧ isBlank c = false
  takes : ∀ rest, Ends rest → Takes item written.toList a rest

/-- The first character of the text is at hand where it is taken. -/
theorem TakesItem.of_head {c : Char} (hhead : written.toList.head? = some c)
    (hblank : isBlank c = false)
    (h : ∀ rest, (written.toList ++ rest).head? = some c → Ends rest →
      Takes item written.toList a rest) : TakesItem item written a :=
  ⟨⟨c, hhead, hblank⟩, fun rest => h rest (List.mem_head?_append_of_mem_head? hhead)⟩

/-- Its text does not start with a blank whatever follows. -/
theorem TakesItem.not_blank (h : TakesItem item written a) (rest : List Char) :
    ∀ c ∈ (written.toList ++ rest).head?, isBlank c = false := by
  obtain ⟨c, hc, hblank⟩ := h.head
  rw [List.head?_append, hc]
  rintro d ⟨⟩
  exact hblank

/-- Blanks around an item make no difference. -/
theorem TakesItem.takes_spaced (h : TakesItem item written a)
    (hbefore : ∀ c ∈ before, isBlank c = true) (hafter : ∀ c ∈ after, isBlank c = true)
    (hends : Ends rest) (hrest : ∀ c ∈ rest.head?, isBlank c = false) :
    Takes (spaced item) (before ++ (written.toList ++ after)) a rest := by
  have hend : Takes (do blanks; pure a) after a rest :=
    (takes_blanks hafter hrest).yield (takes_pure a rest)
  exact (takes_blanks hbefore (by rw [List.append_assoc]; exact h.not_blank _)).bind
    ((h.takes _ (ends_of_blanks hafter hends)).bind hend)

/-- The brackets that close a list. -/
def IsClosing (c : Char) : Prop := c = ']' ∨ c = '\x7d'

/-- Before a closing bracket a value may end, and there are no blanks. -/
theorem IsClosing.facts (h : IsClosing right) (rest : List Char) :
    isBlank right = false ∧ right ≠ ',' ∧ Ends (right :: rest) := by
  rcases h with rfl | rfl
  · exact ⟨by decide, by decide, by rintro c ⟨⟩; decide⟩
  · exact ⟨by decide, by decide, by rintro c ⟨⟩; decide⟩

/-- What follows an item are blanks and then the other items, each after its comma, with blanks
around it, the last one followed by the blanks before the closing bracket. -/
theorem exists_takesAll (rest : List Char) {others : List String} {values : List α}
    (h : List.Forall₂ (TakesItem item) others values) (hright : IsClosing right)
    {indent last : List Char} (hindent : ∀ c ∈ indent, isBlank c = true)
    (hlast : ∀ c ∈ last, isBlank c = true) :
    ∃ after more, others.flatMap (fun s => ',' :: (indent ++ s.toList)) ++ last = after ++ more ∧
      (∀ c ∈ after, isBlank c = true) ∧ Ends (more ++ right :: rest) ∧
      (∀ c ∈ (more ++ right :: rest).head?, isBlank c = false) ∧
      TakesAll (do char ','; spaced item) (right :: rest) more values := by
  obtain ⟨hblank, hcomma, hends⟩ := hright.facts rest
  induction h with
  | nil =>
    refine ⟨last, [], (List.append_nil _).symm, hlast, hends, ?_, .nil ?_⟩
    · rintro c ⟨⟩
      exact hblank
    · exact bind_of_none (char_of_ne hcomma)
  | @cons s a others values hs _ ih =>
    obtain ⟨after, more, htext, hafter, hmore, hnone, hall⟩ := ih
    have hitem : Takes (do char ','; spaced item) (',' :: (indent ++ (s.toList ++ after))) a
        (more ++ right :: rest) :=
      (takes_char ',').bind (hs.takes_spaced hindent hafter hmore hnone)
    refine ⟨[], _, ?_, List.forall_mem_nil _, ?_, ?_, .cons (List.cons_ne_nil _ _) hitem hall⟩
    · simp only [List.flatMap_cons, List.append_assoc, List.cons_append, List.nil_append, htext]
    · rintro c ⟨⟩
      decide
    · rintro c ⟨⟩
      decide

/-- Items between brackets are read back. -/
theorem takes_listed {texts : List String} {values : List α}
    (h : List.Forall₂ (TakesItem item) texts values) (hright : IsClosing right)
    (hempty : ∀ rest, item (right :: rest) = none) (level : Nat) :
    Takes (listed left right item)
      (bracketed (String.singleton left) (String.singleton right) level texts).toList values
      rest := by
  obtain ⟨hblank, -, -⟩ := hright.facts rest
  have hhead : ∀ c ∈ (right :: rest).head?, isBlank c = false := by
    rintro c ⟨⟩
    exact hblank
  have hclosed (items : List α) : Takes (closed right items) ([] ++ [right]) items rest :=
    (takes_blanks (List.forall_mem_nil _) hhead).bind
      ((takes_char right).yield (takes_pure items rest))
  have hindent (deeper : Nat) : ∀ c ∈ (lineStart deeper).toList, isBlank c = true :=
    fun c hc => isBlank_of_mem_lineStart hc
  rw [listed_eq]
  cases h with
  | nil =>
    have hnone : spaced item (right :: rest) = none := by
      have hblanks : Takes blanks [] () (right :: rest) :=
        takes_blanks (List.forall_mem_nil _) hhead
      rw [spaced, bind_apply, ← List.nil_append (right :: rest), hblanks]
      exact bind_of_none (hempty rest)
    rw [bracketed, String.toList_append, String.toList_singleton, String.toList_singleton]
    exact (takes_char left).bind (Takes.skip hnone (hclosed []))
  | @cons first a others values hfirst hothers =>
    obtain ⟨after, more, htext, hafter, hmore, hnone, hall⟩ :=
      exists_takesAll rest hothers hright (hindent (level + 1)) (hindent level)
    have hspaced : Takes (spaced item) ((lineStart (level + 1)).toList ++ (first.toList ++ after))
        a (more ++ [right] ++ rest) := by
      rw [List.append_assoc]
      exact hfirst.takes_spaced (hindent (level + 1)) hafter hmore hnone
    have hwritten :
        (bracketed (String.singleton left) (String.singleton right) level (first :: others)).toList =
          [left] ++ ((lineStart (level + 1)).toList ++ (first.toList ++ after) ++
            (more ++ [right])) := by
      have hcomma : ",".toList = [','] := rfl
      simp only [bracketed, String.toList_append, toList_joined_cons, String.toList_singleton,
        hcomma, List.append_assoc, List.cons_append, List.nil_append]
      rw [← List.append_assoc after, ← htext, List.append_assoc]
    rw [hwritten]
    refine (takes_char left).bind (hspaced.attempt.bind ?_)
    exact hall.many.bind (hclosed _)

/-- What starts with another character is no list. -/
theorem listed_of_head {cs : List Char} (h : left ∉ cs.head?) : listed left right item cs = none :=
  bind_of_none (char_of_head h)

/-- What is written between brackets starts with the opening one. -/
theorem head?_bracketed (left : Char) (right : String) (level : Nat) (texts : List String) :
    (bracketed (String.singleton left) right level texts).toList.head? = some left := by
  cases texts <;> simp [bracketed]

/-- Every item is shorter than what is written between brackets. -/
theorem length_lt_bracketed {texts : List String} (h : written ∈ texts) (left : Char)
    (right : String) (level : Nat) :
    written.length < (bracketed (String.singleton left) right level texts).length := by
  cases texts with
  | nil => contradiction
  | cons first others =>
    have hlength := length_le_joined ("," ++ lineStart (level + 1)) h
    simp only [bracketed, String.length_append, String.length_singleton]
    omega

end Json

end StubGen

import Mathlib.Data.List.Basic
import StubGen.Text.Reader

/-!
# What readers take

A reader takes a text, and yields its value, in front of what follows the text. Reading step by
step takes the texts of the steps one after the other.
-/

namespace StubGen.Text.Reader

variable {α β : Type}

/-- In front of `rest` a reader takes exactly the given text and yields a value. -/
def Takes (r : Reader α) (text : List Char) (a : α) (rest : List Char) : Prop :=
  r (text ++ rest) = some (a, rest)

/-- A reader that takes one text after the other, and fails at what follows the last of them. -/
inductive TakesAll (r : Reader α) (rest : List Char) : List Char → List α → Prop
  | nil (h : r rest = none) : TakesAll r rest [] []
  | cons {text others : List Char} {a : α} {values : List α} (hne : text ≠ [])
      (h : Takes r text a (others ++ rest)) (hothers : TakesAll r rest others values) :
      TakesAll r rest (text ++ others) (a :: values)

variable {r : Reader α} {next : α → Reader β} {text more rest cs : List Char} {a : α} {b : β}
  {wanted : Char → Bool}

/-- A step takes its text, and the next one what follows. -/
theorem bind_apply (r : Reader α) (next : α → Reader β) (cs : List Char) :
    (r >>= next) cs = (r cs).bind fun result => next result.1 result.2 := rfl

theorem takes_pure (a : α) (rest : List Char) : Takes (pure a) [] a rest := rfl

theorem Takes.bind (h : Takes r text a (more ++ rest)) (hnext : Takes (next a) more b rest) :
    Takes (r >>= next) (text ++ more) b rest := by
  rw [Takes, bind_apply, List.append_assoc, h]
  exact hnext

/-- The last step takes nothing more. -/
theorem Takes.yield (h : Takes r text a rest) (hnext : Takes (next a) [] b rest) :
    Takes (r >>= next) text b rest := by
  have htakes : Takes (r >>= next) (text ++ []) b rest := Takes.bind h hnext
  rwa [List.append_nil] at htakes

/-- Yielding something else takes nothing more. -/
theorem Takes.map (h : Takes r text a rest) (g : α → β) :
    Takes (do pure (g (← r))) text (g a) rest := h.yield (takes_pure (g a) rest)

theorem bind_of_none (h : r cs = none) : (r >>= next) cs = none := by
  rw [bind_apply, h, Option.bind_none]

/-! ## Single characters -/

theorem takes_one {c : Char} (h : wanted c = true) : Takes (one wanted) [c] c rest := by
  simp only [Takes, List.singleton_append, one, h, if_true]

theorem one_of_not {c : Char} (h : wanted c = false) : one wanted (c :: cs) = none := by
  simp only [one, h, Bool.false_eq_true, if_false]

theorem takes_char (c : Char) : Takes (char c) [c] () rest := by
  simp only [Takes, List.singleton_append, char, if_true]

theorem char_of_ne {c d : Char} (h : d ≠ c) : char c (d :: cs) = none := by
  simp only [char, h, if_false]

/-- A reader of one character fails at a text that starts with none such. -/
theorem one_of_head (h : ∀ c ∈ cs.head?, wanted c = false) : one wanted cs = none := by
  cases cs with
  | nil => rfl
  | cons c cs => exact one_of_not (h c rfl)

theorem char_of_head {c : Char} (h : c ∉ cs.head?) : char c cs = none := by
  cases cs with
  | nil => rfl
  | cons d cs => exact char_of_ne fun hd => h (hd ▸ rfl)

theorem takes_exactly (s : String) : Takes (exactly s) s.toList () rest := by
  rw [Takes, exactly, List.isPrefixOf?_eq_some_iff_append_eq.mpr rfl]
  rfl

/-- Given characters are not taken off a text that starts with another one. -/
theorem exactly_of_head {s : String} {c : Char} (hs : s.toList.head? = some c)
    (h : c ∉ cs.head?) : exactly s cs = none := by
  obtain ⟨tail, hs⟩ := List.head?_eq_some_iff.mp hs
  rw [exactly, hs]
  cases cs with
  | nil => rfl
  | cons d cs =>
    have hne : c ≠ d := fun hd => h (hd ▸ rfl)
    rw [List.isPrefixOf?, beq_false_of_ne hne]
    rfl

/-! ## Runs -/

/-- A run ends where a character of another class follows. -/
theorem run_ends (htext : ∀ c ∈ text, wanted c = true)
    (hrest : ∀ c ∈ rest.head?, wanted c = false) :
    (text ++ rest).takeWhile wanted = text ∧ (text ++ rest).dropWhile wanted = rest := by
  rw [List.takeWhile_append_of_pos htext, List.dropWhile_append_of_pos htext]
  cases rest with
  | nil => exact ⟨List.append_nil text, rfl⟩
  | cons c cs =>
    have hc : wanted c = false := hrest c rfl
    simp only [List.takeWhile_cons, List.dropWhile_cons, hc, Bool.false_eq_true, if_false,
      List.append_nil, and_self]

theorem takes_run (htext : ∀ c ∈ text, wanted c = true)
    (hrest : ∀ c ∈ rest.head?, wanted c = false) : Takes (run wanted) text text rest := by
  obtain ⟨htaken, hleft⟩ := run_ends htext hrest
  rw [Takes, run, htaken, hleft]

theorem takes_run1 (hne : text ≠ []) (htext : ∀ c ∈ text, wanted c = true)
    (hrest : ∀ c ∈ rest.head?, wanted c = false) : Takes (run1 wanted) text text rest := by
  obtain ⟨htaken, hleft⟩ := run_ends htext hrest
  obtain ⟨c, cs, rfl⟩ := List.exists_cons_of_ne_nil hne
  simp only [Takes, run1, htaken, hleft]

theorem run1_of_head (h : ∀ c ∈ cs.head?, wanted c = false) : run1 wanted cs = none := by
  obtain ⟨htaken, -⟩ := run_ends (List.forall_mem_nil _) h
  rw [List.nil_append] at htaken
  rw [run1, htaken]

/-! ## Choices and repetitions -/

theorem Takes.attempt (h : Takes r text a rest) : Takes (attempt r) text (some a) rest := by
  rw [Takes, Reader.attempt, h]

/-- What is tried and fails is passed over. -/
theorem Takes.skip {next : Option α → Reader β} (h : r (text ++ rest) = none)
    (hnext : Takes (next none) text b rest) : Takes (Reader.attempt r >>= next) text b rest := by
  rw [Takes, bind_apply, Reader.attempt, h]
  exact hnext

theorem Takes.oneOf {others : List (Reader α)} (h : Takes r text a rest) :
    Takes (oneOf (r :: others)) text a rest := by
  simp only [Takes, Reader.oneOf] at h ⊢
  rw [h]

theorem oneOf_of_none {others : List (Reader α)} (h : r cs = none) :
    oneOf (r :: others) cs = oneOf others cs := by
  simp only [Reader.oneOf, h]

/-- As many repetitions are enough as there are values. -/
theorem TakesAll.takes_repeatUpTo {values : List α} (h : TakesAll r rest text values) {n : Nat}
    (hn : values.length ≤ n) : Takes (repeatUpTo r n) text values rest := by
  induction h generalizing n with
  | nil hnone =>
    cases n with
    | zero => rfl
    | succ n => simp only [Takes, List.nil_append, repeatUpTo, hnone]
  | cons hne h _ ih =>
    cases n with
    | zero => contradiction
    | succ n =>
      have hothers := ih (Nat.le_of_succ_le_succ hn)
      simp only [Takes, repeatUpTo, List.append_assoc] at h hothers ⊢
      rw [h]
      simp only [hothers, Option.map_some]

/-- There are no more values than characters. -/
theorem TakesAll.length_le {values : List α} (h : TakesAll r rest text values) :
    values.length ≤ text.length := by
  induction h with
  | nil => exact Nat.le_refl _
  | cons hne _ _ ih =>
    have hpos := List.length_pos_iff.mpr hne
    rw [List.length_cons, List.length_append]
    omega

theorem TakesAll.many {values : List α} (h : TakesAll r rest text values) :
    Takes (many r) text values rest := by
  refine h.takes_repeatUpTo (Nat.le_trans h.length_le ?_)
  rw [List.length_append]
  exact Nat.le_add_right _ _

end StubGen.Text.Reader

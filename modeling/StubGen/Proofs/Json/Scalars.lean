import StubGen.Json.Reader
import StubGen.Json.Writer
import StubGen.Proofs.Text.Reading

/-!
# Numbers and texts are read back

Whole numbers are written in decimal digits, without needless zeros, and the characters of a text
as they are or as escapes. The readers of numbers and texts take what is written and yield what it
was written for.
-/

namespace StubGen

namespace Text

/-- Whole numbers are written in decimal digits. -/
theorem isDigit_of_mem_toDigits {n : Nat} {c : Char} (h : c ∈ Nat.toDigits 10 n) :
    isDigit c = true :=
  Nat.isDigit_of_mem_toDigits (by decide) (by decide) h

/-- The value of a decimal digit. -/
theorem hexDigit?_of_isDigit {c : Char} (h : isDigit c = true) :
    hexDigit? c = some (c.toNat - '0'.toNat) := by
  simp only [isDigit, Bool.and_eq_true, decide_eq_true_eq] at h
  rw [hexDigit?, if_pos h]

/-- The digits of a number write the number. -/
theorem numberOf_toDigits (n : Nat) : numberOf 10 (Nat.toDigits 10 n) = n := by
  refine Eq.trans (List.foldl_ext _ _ 0 fun m c hc => ?_) Nat.ofDigitChars_ten_toDigits
  rw [hexDigit?_of_isDigit (isDigit_of_mem_toDigits hc), Option.getD_some, Nat.mul_comm]

/-- Only zero starts with a zero. -/
theorem head?_toDigits_ne_zero {n : Nat} (h : n ≠ 0) : (Nat.toDigits 10 n).head? ≠ some '0' := by
  induction n using Nat.strongRecOn with
  | ind n ih =>
    by_cases hsmall : n < 10
    · have hdigit : ∀ m < 10, m ≠ 0 → Nat.digitChar m ≠ '0' := by decide
      rw [Nat.toDigits_of_lt_base hsmall, List.head?_cons, ne_eq, Option.some.injEq]
      exact hdigit n hsmall h
    · rw [Nat.toDigits_of_base_le (by decide) (Nat.le_of_not_lt hsmall),
        List.head?_append_of_ne_nil _ Nat.toDigits_ne_nil]
      exact ih (n / 10) (by omega) (by omega)

/-- A code point has its character. -/
theorem charOfNat?_toNat (c : Char) : charOfNat? c.toNat = some c := by
  have hvalid : c.toNat.isValidChar := c.valid
  rw [charOfNat?, dif_pos hvalid]
  rfl

/-- Hexadecimal digits are read back. -/
theorem hexDigit?_hexDigit : ∀ n < 16, hexDigit? (Json.hexDigit n) = some n := by
  decide

end Text

namespace Json

open Text Text.Reader

variable {rest : List Char}

/-! ## Numbers -/

/-- What follows a value does not go on with a number. -/
def Ends (rest : List Char) : Prop :=
  ∀ c ∈ rest.head?, isDigit c = false ∧ c ≠ '.' ∧ c ≠ 'e' ∧ c ≠ 'E'

/-- The whole part of a number is all its digits. -/
theorem takes_whole (n : Nat) (hrest : ∀ c ∈ rest.head?, isDigit c = false) :
    Takes (oneOf [do char '0'; pure ['0'], run1 isDigit]) (Nat.toDigits 10 n) (Nat.toDigits 10 n)
      rest := by
  by_cases hn : n = 0
  · subst hn
    exact ((takes_char '0').bind (takes_pure ['0'] rest)).oneOf
  · have hzero : '0' ∉ (Nat.toDigits 10 n ++ rest).head? := by
      rw [List.head?_append_of_ne_nil _ Nat.toDigits_ne_nil]
      exact head?_toDigits_ne_zero hn
    have hdigits : Takes (run1 isDigit) (Nat.toDigits 10 n) (Nat.toDigits 10 n) rest :=
      takes_run1 Nat.toDigits_ne_nil (fun c hc => isDigit_of_mem_toDigits hc) hrest
    rw [Takes, oneOf_of_none (bind_of_none (char_of_head hzero))]
    exact hdigits.oneOf

/-- A whole number is read back. -/
theorem takes_numberText (n : Nat) (hrest : Ends rest) :
    Takes numberText (Nat.toDigits 10 n) (toString n) rest := by
  have hsign : '-' ∉ (Nat.toDigits 10 n ++ rest).head? := by
    rw [List.head?_append_of_ne_nil _ Nat.toDigits_ne_nil]
    intro hmem
    have := isDigit_of_mem_toDigits (List.mem_of_head? hmem)
    contradiction
  have hfraction : '.' ∉ rest.head? := fun hmem => (hrest '.' hmem).2.1 rfl
  have hpower : ∀ c ∈ rest.head?, (c == 'e' || c == 'E') = false := by
    intro c hc
    simp only [(hrest c hc).2.2.1, (hrest c hc).2.2.2, Bool.or_eq_false_iff,
      beq_eq_false_iff_ne, ne_eq, not_false_eq_true, and_self]
  refine Takes.skip (char_of_head hsign) ((takes_whole n fun c hc => (hrest c hc).1).yield ?_)
  refine Takes.skip (bind_of_none (char_of_head hfraction)) ?_
  refine Takes.skip (bind_of_none (one_of_head hpower)) ?_
  have hwritten : String.ofList ([] ++ Nat.toDigits 10 n ++ [] ++ []) = toString n := by
    rw [List.nil_append, List.append_nil, List.append_nil]
    rfl
  exact congrArg (fun written => some (written, rest)) hwritten

/-- A number starts with its sign or a digit. -/
theorem numberText_of_head {cs : List Char} (hsign : '-' ∉ cs.head?)
    (hdigit : ∀ c ∈ cs.head?, isDigit c = false) : numberText cs = none := by
  have hzero : '0' ∉ cs.head? := fun hmem => by
    have := hdigit '0' hmem
    contradiction
  rw [numberText, bind_apply, Reader.attempt, char_of_head hsign]
  refine bind_of_none ?_
  rw [oneOf_of_none (bind_of_none (char_of_head hzero)), oneOf_of_none (run1_of_head hdigit)]
  rfl

/-! ## Texts -/

/-- Four hexadecimal digits after the mark of an escape. -/
theorem takes_unitEscape {digits : List Char} (hlength : digits.length = 4)
    (hdigits : ∀ d ∈ digits, (hexDigit? d).isSome = true) :
    Takes unitEscape ('\\' :: 'u' :: digits) (numberOf 16 digits) rest := by
  have hnumber : Takes (hexNumber 4) digits (numberOf 16 digits) rest := by
    rw [Takes, hexNumber, List.take_left' hlength, List.drop_left' hlength]
    exact if_pos ⟨hlength, List.all_eq_true.mpr hdigits⟩
  exact (takes_exactly "\\u").bind hnumber

/-- An escaped control character is read back. -/
theorem takes_escape_of_control {c : Char} (h : c < ' ') :
    Takes escape ['\\', 'u', '0', '0', hexDigit (c.toNat / 16), hexDigit (c.toNat % 16)] (some c)
      rest := by
  have hsmall : c.toNat < 32 := h
  have hfirst := hexDigit?_hexDigit (c.toNat / 16) (by omega)
  have hsecond := hexDigit?_hexDigit (c.toNat % 16) (by omega)
  have hunit : Takes unitEscape
      ['\\', 'u', '0', '0', hexDigit (c.toNat / 16), hexDigit (c.toNat % 16)] c.toNat rest := by
    have hzero : hexDigit? '0' = some 0 := by decide
    have hnumber : numberOf 16 ['0', '0', hexDigit (c.toNat / 16), hexDigit (c.toNat % 16)] =
        c.toNat := by
      simp only [numberOf, List.foldl_cons, List.foldl_nil, hzero, hfirst, hsecond,
        Option.getD_some]
      omega
    have htakes : Takes unitEscape
        ('\\' :: 'u' :: ['0', '0', hexDigit (c.toNat / 16), hexDigit (c.toNat % 16)]) _ rest :=
      takes_unitEscape rfl (by simp [hzero, hfirst, hsecond])
    rwa [hnumber] at htakes
  have hhigh : isHighSurrogate c.toNat = false := by
    simp only [isHighSurrogate, Bool.and_eq_false_iff, decide_eq_false_iff_not]
    omega
  -- None of the short escapes starts like this one.
  calc escape _
      = (unitEscape >>= _) _ := rfl
    _ = some (some c, rest) := by
      rw [bind_apply, hunit, Option.bind_some]
      simp only [hhigh, Bool.false_eq_true, if_false, charOfNat?_toNat]
      rfl

/-- A character between double quotes is read back. -/
theorem takes_textPiece (c : Char) : Takes textPiece (escaped c) (some c) rest := by
  have hescape {cs : List Char} (h : Takes escape ('\\' :: cs) (some c) rest) :
      Takes textPiece ('\\' :: cs) (some c) rest := by
    rw [Takes, textPiece, List.cons_append, oneOf_of_none (bind_of_none (one_of_not (by decide)))]
    exact h.oneOf
  unfold escaped
  split_ifs with hquote hback hb hf hn hr ht hcontrol
  · exact hescape (by subst hquote; rfl)
  · exact hescape (by subst hback; rfl)
  · exact hescape (by subst hb; rfl)
  · exact hescape (by subst hf; rfl)
  · exact hescape (by subst hn; rfl)
  · exact hescape (by subst hr; rfl)
  · exact hescape (by subst ht; rfl)
  · exact hescape (takes_escape_of_control hcontrol)
  · have hplain : (decide (' ' ≤ c) && c != '"' && c != '\\') = true := by
      simp [hquote, hback, Char.not_lt.mp hcontrol]
    have hone : Takes (one fun c => ' ' ≤ c && c != '"' && c != '\\') [c] c rest := takes_one hplain
    exact (hone.map some).oneOf

/-- The characters of a text are read back. -/
theorem takesAll_textPiece (cs : List Char) :
    TakesAll textPiece ('"' :: rest) (cs.flatMap escaped) (cs.map some) := by
  induction cs with
  | nil => exact .nil rfl
  | cons c cs ih =>
    rw [List.flatMap_cons]
    refine .cons ?_ (takes_textPiece c) ih
    unfold escaped
    split_ifs <;> exact List.cons_ne_nil _ _

/-- A text is read back. -/
theorem takes_quotedText (s : String) : Takes quotedText (quoted s).toList (some s) rest := by
  have hpieces : (s.toList.map some).mapM id = some s.toList := by
    rw [List.mapM_map]
    exact List.mapM_pure.trans (congrArg some (List.map_id s.toList))
  have hcontent : ((s.toList.map some).mapM id).map String.ofList = some s := by
    rw [hpieces, Option.map_some, String.ofList_toList]
  have hend : Takes (do char '"'; pure (((s.toList.map some).mapM id).map String.ofList)) ['"']
      (some s) rest := (takes_char '"').bind (hcontent ▸ takes_pure _ rest)
  rw [quoted, String.toList_ofList, List.append_assoc]
  exact (takes_char '"').bind ((takesAll_textPiece s.toList).many.bind hend)

/-- A text starts with a double quote. -/
theorem quotedText_of_head {cs : List Char} (h : '"' ∉ cs.head?) : quotedText cs = none :=
  bind_of_none (char_of_head h)

end Json

end StubGen

import StubGen.Proofs.Json.Brackets

/-!
# Written values are read back

A value of texts, whole numbers, flags and nothing, in arrays and under keys, is the one that is
read from the text it is written as.
-/

namespace StubGen.Json

open Text Text.Reader

variable {right : Char}

/-- The values whose text names them: texts have a content, and numbers are whole. -/
inductive Plain : Json → Prop
  | null : Plain null
  | flag (content : Bool) : Plain (flag content)
  | ofNat (n : Nat) : Plain (ofNat n)
  | ofString (s : String) : Plain (ofString s)
  | array {items : List Json} (h : ∀ item ∈ items, Plain item) : Plain (array items)
  | ofMembers {members : List (String × Json)} (h : ∀ m ∈ members, Plain m.2) :
      Plain (ofMembers members)

/-- Items are written one by one. -/
theorem writeItems_eq_map (level : Nat) (items : List Json) :
    writeItems level items = items.map (writeAt level) := by
  induction items with
  | nil => rw [writeItems, List.map_nil]
  | cons item items ih => rw [writeItems, List.map_cons, ih]

/-- A key and its value on one line. -/
def memberText (level : Nat) (m : String × Json) : String :=
  quoted m.1 ++ ": " ++ writeAt level m.2

/-- Members are written one by one, too. -/
theorem writeMembers_ofMembers (level : Nat) (members : List (String × Json)) :
    writeMembers level (members.map fun m => (some m.1, m.2)) =
      members.map (memberText level) := by
  induction members with
  | nil => rw [List.map_nil, writeMembers, List.map_nil]
  | cons m members ih =>
    rw [List.map_cons, writeMembers, List.map_cons, ih, Option.getD_some, memberText]

/-- A text starts with a double quote. -/
theorem head?_quoted (s : String) : (quoted s).toList.head? = some '"' := by
  rw [quoted, String.toList_ofList]
  rfl

/-- A value is one of seven kinds. -/
theorem value_succ (depth : Nat) :
    value (depth + 1) = oneOf [do exactly "null"; pure null, do exactly "true"; pure (flag true),
      do exactly "false"; pure (flag false), do pure (number (← numberText)),
      do pure (text (← quotedText)), do pure (array (← listed '[' ']' (value depth))),
      do pure (object (← listed '\x7b' '\x7d' (member (value depth))))] := rfl

theorem head?_null : "null".toList.head? = some 'n' := rfl

theorem head?_true : "true".toList.head? = some 't' := rfl

theorem head?_false : "false".toList.head? = some 'f' := rfl

/-- The kinds that are left if the first character is that of none of the others. -/
theorem value_of_head {cs : List Char} {c : Char} (hhead : cs.head? = some c)
    (hc : c ∉ ['n', 't', 'f', '-'] ∧ isDigit c = false) (depth : Nat) :
    value (depth + 1) cs = oneOf [do pure (text (← quotedText)),
      do pure (array (← listed '[' ']' (value depth))),
      do pure (object (← listed '\x7b' '\x7d' (member (value depth))))] cs := by
  have hother {d : Char} (hd : d ∈ ['n', 't', 'f', '-']) : d ∉ cs.head? := by
    rw [hhead]
    rintro ⟨⟩
    exact hc.1 hd
  have hdigit : ∀ d ∈ cs.head?, isDigit d = false := by
    rw [hhead]
    rintro d ⟨⟩
    exact hc.2
  rw [value_succ, oneOf_of_none (bind_of_none (exactly_of_head head?_null (hother (by decide)))),
    oneOf_of_none (bind_of_none (exactly_of_head head?_true (hother (by decide)))),
    oneOf_of_none (bind_of_none (exactly_of_head head?_false (hother (by decide)))),
    oneOf_of_none (bind_of_none (numberText_of_head (hother (by decide)) hdigit))]

/-- No value starts with a closing bracket. -/
theorem value_of_closing (hright : IsClosing right) (depth : Nat) (rest : List Char) :
    value depth (right :: rest) = none := by
  have hfree : right ∉ ['n', 't', 'f', '-'] ∧ isDigit right = false ∧ right ≠ '"' ∧
      right ≠ '[' ∧ right ≠ '\x7b' := by
    rcases hright with rfl | rfl <;> decide
  obtain ⟨hletter, hdigit, hquote, harray, hobject⟩ := hfree
  cases depth with
  | zero => rfl
  | succ depth =>
    have hhead {c : Char} (hc : right ≠ c) : c ∉ (right :: rest).head? := fun h =>
      hc (Option.some.inj h)
    rw [value_of_head rfl ⟨hletter, hdigit⟩,
      oneOf_of_none (bind_of_none (quotedText_of_head (hhead hquote))),
      oneOf_of_none (bind_of_none (listed_of_head (hhead harray))),
      oneOf_of_none (bind_of_none (listed_of_head (hhead hobject)))]
    rfl

/-- A member is taken if its value is. -/
theorem takesItem_member {item : Reader Json} {level : Nat} {m : String × Json}
    (h : TakesItem item (writeAt level m.2) m.2) :
    TakesItem (member item) (memberText level m) (some m.1, m.2) := by
  have hspace : ": ".toList = [':'] ++ [' '] := rfl
  refine .of_head (c := '"') ?_ (by decide) fun rest _ hrest => ?_
  · rw [memberText, String.toList_append, String.toList_append, List.append_assoc]
    exact List.mem_head?_append_of_mem_head? (head?_quoted m.1)
  · rw [memberText, String.toList_append, String.toList_append, hspace, List.append_assoc,
      List.append_assoc]
    have hcolon : Takes (do
        blanks
        char ':'
        blanks
        pure (some m.1, ← item)) ([] ++ ([':'] ++ ([' '] ++ (writeAt level m.2).toList)))
        (some m.1, m.2) rest := by
      refine (takes_blanks (List.forall_mem_nil _) ?_).bind ((takes_char ':').bind
        ((takes_blanks ?_ (h.not_blank rest)).bind ((h.takes rest hrest).yield (takes_pure _ rest))))
      · rintro c ⟨⟩
        decide
      · exact List.forall_mem_singleton.mpr rfl
    exact (takes_quotedText m.1).bind hcolon

/-- An array is taken if its items are. -/
theorem takesItem_array {level depth : Nat} {items : List Json}
    (h : ∀ item ∈ items, TakesItem (value depth) (writeAt (level + 1) item) item) :
    TakesItem (value (depth + 1)) (writeAt level (array items)) (array items) := by
  rw [writeAt, writeItems_eq_map]
  have hhead := head?_bracketed '[' "]" level (items.map (writeAt (level + 1)))
  refine .of_head hhead (by decide) fun rest hstart _ => ?_
  have hlisted : Takes (listed '[' ']' (value depth)) _ items rest :=
    takes_listed (List.forall₂_map_left_iff.mpr (List.forall₂_same.mpr h)) (.inl rfl)
      (value_of_closing (.inl rfl) depth) level
  rw [Takes, value_of_head hstart (by decide),
    oneOf_of_none (bind_of_none (quotedText_of_head (by rw [hstart]; decide)))]
  exact (hlisted.map array).oneOf

/-- An object is taken if the values of its members are. -/
theorem takesItem_ofMembers {level depth : Nat} {members : List (String × Json)}
    (h : ∀ m ∈ members, TakesItem (value depth) (writeAt (level + 1) m.2) m.2) :
    TakesItem (value (depth + 1)) (writeAt level (ofMembers members)) (ofMembers members) := by
  rw [ofMembers, writeAt, writeMembers_ofMembers]
  have hhead := head?_bracketed '\x7b' "\x7d" level (members.map (memberText (level + 1)))
  refine .of_head hhead (by decide) fun rest hstart _ => ?_
  have hmembers : List.Forall₂ (TakesItem (member (value depth)))
      (members.map (memberText (level + 1))) (members.map fun m => (some m.1, m.2)) :=
    List.forall₂_map_left_iff.mpr (List.forall₂_map_right_iff.mpr
      (List.forall₂_same.mpr fun m hm => takesItem_member (h m hm)))
  have hlisted : Takes (listed '\x7b' '\x7d' (member (value depth))) _ _ rest :=
    takes_listed hmembers (.inr rfl)
      (fun rest => bind_of_none (quotedText_of_head (by rintro ⟨⟩))) level
  rw [Takes, value_of_head hstart (by decide),
    oneOf_of_none (bind_of_none (quotedText_of_head (by rw [hstart]; decide))),
    oneOf_of_none (bind_of_none (listed_of_head (by rw [hstart]; decide)))]
  exact (hlisted.map object).oneOf

/-- The absent value is taken. -/
theorem takesItem_null (level depth : Nat) :
    TakesItem (value (depth + 1)) (writeAt level null) null := by
  rw [writeAt]
  refine .of_head head?_null (by decide) fun rest _ _ => ?_
  rw [value_succ]
  exact ((takes_exactly "null").map fun _ => null).oneOf

/-- A flag is taken. -/
theorem takesItem_flag (level depth : Nat) (content : Bool) :
    TakesItem (value (depth + 1)) (writeAt level (flag content)) (flag content) := by
  cases content with
  | true =>
    rw [writeAt]
    refine .of_head head?_true (by decide) fun rest hstart _ => ?_
    rw [Takes, value_succ,
      oneOf_of_none (bind_of_none (exactly_of_head head?_null (by rw [hstart]; decide)))]
    exact ((takes_exactly "true").map fun _ => flag true).oneOf
  | false =>
    rw [writeAt]
    refine .of_head head?_false (by decide) fun rest hstart _ => ?_
    rw [Takes, value_succ,
      oneOf_of_none (bind_of_none (exactly_of_head head?_null (by rw [hstart]; decide))),
      oneOf_of_none (bind_of_none (exactly_of_head head?_true (by rw [hstart]; decide)))]
    exact ((takes_exactly "false").map fun _ => flag false).oneOf

/-- A whole number is taken. -/
theorem takesItem_ofNat (level depth n : Nat) :
    TakesItem (value (depth + 1)) (writeAt level (ofNat n)) (ofNat n) := by
  have hdigits : (toString n).toList = Nat.toDigits 10 n := Nat.toList_repr
  obtain ⟨c, cs, hcs⟩ := List.exists_cons_of_ne_nil (Nat.toDigits_ne_nil (n := n) (b := 10))
  have hdigit : isDigit c = true := isDigit_of_mem_toDigits (n := n) (by simp [hcs])
  have hne {d : Char} (hd : isDigit d = false) : c ≠ d := by
    rintro rfl
    simp [hdigit] at hd
  have hblank : isBlank c = false := by
    simp [isBlank, hne (d := ' ') rfl, hne (d := '\t') rfl, hne (d := '\n') rfl,
      hne (d := '\r') rfl]
  rw [ofNat, writeAt]
  refine .of_head (c := c) (by rw [hdigits, hcs]; rfl) hblank fun rest hstart hrest => ?_
  have hother {d : Char} (hd : isDigit d = false) : d ∉ ((toString n).toList ++ rest).head? := by
    rw [hstart]
    exact fun h => hne hd (Option.some.inj h)
  rw [Takes, value_succ, oneOf_of_none (bind_of_none (exactly_of_head head?_null (hother rfl))),
    oneOf_of_none (bind_of_none (exactly_of_head head?_true (hother rfl))),
    oneOf_of_none (bind_of_none (exactly_of_head head?_false (hother rfl))), hdigits]
  exact ((takes_numberText n hrest).map number).oneOf

/-- A text is taken. -/
theorem takesItem_ofString (level depth : Nat) (s : String) :
    TakesItem (value (depth + 1)) (writeAt level (ofString s)) (ofString s) := by
  rw [ofString, writeAt, Option.getD_some]
  refine .of_head (head?_quoted s) (by decide) fun rest hstart _ => ?_
  rw [Takes, value_of_head hstart (by decide)]
  exact ((takes_quotedText s).map text).oneOf

/-- A written value is read back from any level if the bound on the nesting lets it. -/
theorem Plain.takesItem {v : Json} (h : Plain v) (level : Nat) {depth : Nat}
    (hdepth : (writeAt level v).length ≤ depth) :
    TakesItem (value (depth + 1)) (writeAt level v) v := by
  induction h generalizing level depth with
  | null => exact takesItem_null level depth
  | flag content => exact takesItem_flag level depth content
  | ofNat n => exact takesItem_ofNat level depth n
  | ofString s => exact takesItem_ofString level depth s
  | @array items _ ih =>
    refine takesItem_array fun item hitem => ?_
    have hlt : (writeAt (level + 1) item).length < depth := by
      refine Nat.lt_of_lt_of_le ?_ hdepth
      rw [writeAt, writeItems_eq_map]
      exact length_lt_bracketed (List.mem_map_of_mem hitem) '[' "]" level
    cases depth with
    | zero => contradiction
    | succ depth => exact ih item hitem (level + 1) (Nat.le_of_lt_succ hlt)
  | @ofMembers members _ ih =>
    refine takesItem_ofMembers fun m hm => ?_
    have hlt : (memberText (level + 1) m).length < depth := by
      refine Nat.lt_of_lt_of_le ?_ hdepth
      rw [Json.ofMembers, writeAt, writeMembers_ofMembers]
      exact length_lt_bracketed (List.mem_map_of_mem hm) '\x7b' "\x7d" level
    rw [memberText, String.length_append] at hlt
    cases depth with
    | zero => contradiction
    | succ depth => exact ih m hm (level + 1) (by omega)

/-- A written value is read back. -/
theorem Plain.ofText?_write {v : Json} (h : Plain v) : ofText? v.write = some v := by
  have hdepth : (writeAt 0 v).length ≤ v.write.toList.length :=
    Nat.le_of_eq String.length_toList.symm
  have hspaced : Takes (spaced (value (v.write.toList.length + 1)))
      ([] ++ (v.write.toList ++ [])) v [] :=
    (h.takesItem 0 hdepth).takes_spaced (List.forall_mem_nil _) (List.forall_mem_nil _)
      (by rintro c ⟨⟩) (by rintro c ⟨⟩)
  rw [Takes, List.nil_append, List.append_nil, List.append_nil] at hspaced
  have hdocument : document v.write.toList = some (v, []) := hspaced
  rw [ofText?, whole?, hdocument]

end StubGen.Json

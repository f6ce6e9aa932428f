import Mathlib.Data.List.Nodup
import Mathlib.Data.List.Perm.Subperm
import Mathlib.Data.Nat.Find
import StubGen.Fragment.FileName

/-!
# Distinct file names

Numbered names differ whenever their numbers do, so among one more of them than there are
names taken one is free. The search for it therefore ends at a free name, and a sequence
of requests gets names that are all different and not taken.

Nothing is assumed about the requests: types, methods and endings may be any texts, and
different requests may have different endings.
-/

namespace StubGen.FileName

variable {names : Nat → String} {taken : List String} {n : Nat}
variable {typeName memberName suffix : String}

/-- A number is told by its decimal digits. -/
theorem toString_nat_injective : Function.Injective (toString : Nat → String) := by
  intro m n h
  have hdigits : Nat.toDigits 10 m = Nat.toDigits 10 n := by
    rw [← Nat.toList_repr, ← Nat.toList_repr]
    exact congrArg String.toList h
  rw [← Nat.ofDigitChars_ten_toDigits (n := m), hdigits, Nat.ofDigitChars_ten_toDigits]

/-- Only digits stand in decimal digits. -/
theorem not_mem_toDigits {c : Char} (h : c.isDigit = false) (n : Nat) : c ∉ Nat.toDigits 10 n := by
  intro hmem
  have hdigit := Nat.isDigit_of_mem_toDigits (by decide) (by decide) hmem
  rw [h] at hdigit
  contradiction

/-- A numbered name tells its number. -/
theorem numbered_injective (typeName memberName suffix : String) :
    Function.Injective (numbered typeName memberName suffix) := by
  intro m n h
  simp only [numbered, String.append_left_inj, String.append_right_inj] at h
  exact toString_nat_injective h

/-- Among one more different names than there are names taken, one is free. -/
theorem exists_not_mem_of_injective {names : Nat → String} (h : Function.Injective names)
    (taken : List String) : ∃ k ≤ taken.length, names k ∉ taken := by
  by_contra hnone
  have hall : ∀ k ≤ taken.length, names k ∈ taken := by
    intro k hk
    by_contra hfree
    exact hnone ⟨k, hk, hfree⟩
  have hsub : (List.range (taken.length + 1)).map names ⊆ taken := by
    intro name hname
    obtain ⟨k, hk, rfl⟩ := List.mem_map.mp hname
    exact hall k (Nat.le_of_lt_succ (List.mem_range.mp hk))
  have hlength := (List.subperm_of_subset (List.nodup_range.map h) hsub).length_le
  simp only [List.length_map, List.length_range] at hlength
  omega

/-- Numbered names from any number on differ. -/
theorem numbered_add_injective (typeName memberName suffix : String) (first : Nat) :
    Function.Injective fun k => numbered typeName memberName suffix (first + k) :=
  fun _ _ h => Nat.add_left_cancel (numbered_injective typeName memberName suffix h)

/-- The first name of a sequence that is not taken. -/
structure IsFirstFree (names : Nat → String) (taken : List String) (n : Nat) : Prop where
  free : names n ∉ taken
  before : ∀ m < n, names m ∈ taken

/-- Among different names there is a first that is not taken, and at most as many stand before it as
are taken. -/
theorem exists_isFirstFree (h : Function.Injective names) (taken : List String) :
    ∃ n ≤ taken.length, IsFirstFree names taken n := by
  obtain ⟨k, hk, hfree⟩ := exists_not_mem_of_injective h taken
  have hexists : ∃ n, names n ∉ taken := ⟨k, hfree⟩
  have hle : Nat.find hexists ≤ taken.length := Nat.le_trans (Nat.find_min' hexists hfree) hk
  refine ⟨Nat.find hexists, hle, Nat.find_spec hexists, ?_⟩
  intro m hm
  exact not_not.mp (Nat.find_min hexists hm)

/-- The bounded search ends at the first free numbered name that is within its reach. -/
theorem IsFirstFree.firstFree_eq {first : Nat}
    (h : IsFirstFree (fun k => numbered typeName memberName suffix (first + k)) taken n)
    {tries : Nat} (hn : n ≤ tries) :
    firstFree taken typeName memberName suffix tries first =
      numbered typeName memberName suffix (first + n) := by
  induction tries generalizing first n with
  | zero =>
    obtain rfl := Nat.le_zero.mp hn
    rfl
  | succ tries ih =>
    rw [firstFree]
    cases n with
    | zero => exact if_neg h.free
    | succ n =>
      have htaken : numbered typeName memberName suffix first ∈ taken := h.before 0 n.succ_pos
      rw [if_pos htaken]
      have hnext : IsFirstFree (fun k => numbered typeName memberName suffix (first + 1 + k))
          taken n := by
        have hshift (k : Nat) : first + 1 + k = first + (k + 1) := by omega
        refine ⟨?_, fun m hm => ?_⟩
        · rw [hshift]
          exact h.free
        · rw [hshift]
          exact h.before (m + 1) (Nat.succ_lt_succ hm)
      rw [ih hnext (Nat.le_of_succ_le_succ hn)]
      congr 1
      omega

/-- The bounded search ends at a numbered name that is free. -/
theorem exists_firstFree_eq (taken : List String) (typeName memberName suffix : String)
    (first : Nat) :
    ∃ n, firstFree taken typeName memberName suffix taken.length first =
        numbered typeName memberName suffix n ∧
      numbered typeName memberName suffix n ∉ taken := by
  obtain ⟨n, hn, hfirst⟩ :=
    exists_isFirstFree (numbered_add_injective typeName memberName suffix first) taken
  exact ⟨first + n, hfirst.firstFree_eq hn, hfirst.free⟩

/-- The name that is chosen is free. -/
theorem choose_not_mem (taken : List String) (typeName memberName suffix : String) :
    choose taken typeName memberName suffix ∉ taken := by
  unfold choose
  split
  · assumption
  · split
    · assumption
    · obtain ⟨n, hn, hfree⟩ := exists_firstFree_eq taken typeName memberName suffix 2
      exact hn ▸ hfree

/-- The name that is chosen ends in the given ending. -/
theorem exists_choose_eq (taken : List String) (typeName memberName suffix : String) :
    ∃ base, choose taken typeName memberName suffix = base ++ suffix := by
  unfold choose
  split
  · exact ⟨typeName, rfl⟩
  · split
    · exact ⟨typeName ++ "." ++ memberName, rfl⟩
    · obtain ⟨n, hn, -⟩ := exists_firstFree_eq taken typeName memberName suffix 2
      exact ⟨_, hn⟩

/-- A name that is given ends in the ending of its request. -/
theorem exists_eq_of_mem_allocate {taken : List String} {requests : List NameRequest}
    {name : String} (h : name ∈ allocate taken requests) :
    ∃ request ∈ requests, ∃ base, name = base ++ request.suffix := by
  induction requests generalizing taken with
  | nil => simp [allocate] at h
  | cons request rest ih =>
    rcases List.mem_cons.mp h with rfl | h
    · exact ⟨request, List.mem_cons_self, exists_choose_eq _ _ _ _⟩
    · obtain ⟨later, hlater, hname⟩ := ih h
      exact ⟨later, List.mem_cons_of_mem _ hlater, hname⟩

/-- Every request gets one name. -/
@[simp] theorem length_allocate (taken : List String) (requests : List NameRequest) :
    (allocate taken requests).length = requests.length := by
  induction requests generalizing taken with
  | nil => rfl
  | cons request rest ih => simp [allocate, ih]

/-- Later requests are answered as if the names of the earlier ones had been taken before. -/
theorem allocate_append (taken : List String) (earlier later : List NameRequest) :
    allocate taken (earlier ++ later) =
      allocate taken earlier ++ allocate ((allocate taken earlier).reverse ++ taken) later := by
  induction earlier generalizing taken with
  | nil => rfl
  | cons request rest ih =>
    simp only [List.cons_append, allocate, List.reverse_cons, List.append_assoc,
      List.nil_append, ih]

/-- Further requests at the end leave the names of the earlier ones as they are. -/
theorem prefix_allocate {requests more : List NameRequest} (h : requests <+: more)
    (taken : List String) : allocate taken requests <+: allocate taken more := by
  obtain ⟨later, rfl⟩ := h
  rw [allocate_append]
  exact List.prefix_append _ _

/-- No request gets a name that was taken before. -/
theorem not_mem_of_mem_allocate {taken : List String} {requests : List NameRequest}
    {name : String} (h : name ∈ allocate taken requests) : name ∉ taken := by
  induction requests generalizing taken with
  | nil => simp [allocate] at h
  | cons request rest ih =>
    rcases List.mem_cons.mp h with rfl | h
    · exact choose_not_mem _ _ _ _
    · exact fun htaken => ih h (List.mem_cons_of_mem _ htaken)

/-- No two requests get the same name. -/
theorem allocate_nodup (taken : List String) (requests : List NameRequest) :
    (allocate taken requests).Nodup := by
  induction requests generalizing taken with
  | nil => exact List.nodup_nil
  | cons request rest ih =>
    refine List.nodup_cons.mpr ⟨fun hmem => ?_, ih _⟩
    exact not_mem_of_mem_allocate hmem List.mem_cons_self

end StubGen.FileName

import Mathlib.Data.List.OfFn
import StubGen.Proofs.Fragment.Batch
import StubGen.Proofs.Fragment.Search
import StubGen.Proofs.Text.Dotted

/-!
# The scheme of file names

If no type and no method of a batch has a dot in its name, the name of a fragment can be told
from the records before it. The first record of a type gets the name of the type. Any
other record is counted among those of its type and its method, the first record of the
type left out: the first of them gets the name of the type and the method, the second one the
number two, and so on.

The reason is that the dots tell a candidate apart from those of all other types, methods and
numbers. So a candidate is taken exactly if records of the same type and method have come that
far, which is the invariant of a run.
-/

namespace StubGen

open FileName

/-- The candidates for the name of a request, in the order in which they are offered. -/
def NameRequest.candidate (r : NameRequest) : Nat → String
  | 0 => ofType r.typeName r.suffix
  | 1 => ofMember r.typeName r.memberName r.suffix
  | n + 2 => numbered r.typeName r.memberName r.suffix (2 + n)

/-- The name that is chosen is the first candidate that is free. -/
theorem FileName.IsFirstFree.choose_eq {r : NameRequest} {taken : List String} {n : Nat}
    (h : IsFirstFree r.candidate taken n) :
    choose taken r.typeName r.memberName r.suffix = r.candidate n := by
  unfold choose
  cases n with
  | zero => exact if_pos h.free
  | succ n =>
    have htype : ofType r.typeName r.suffix ∈ taken := h.before 0 n.succ_pos
    rw [if_neg (not_not.mpr htype)]
    cases n with
    | zero => exact if_pos h.free
    | succ n =>
      have hmember : ofMember r.typeName r.memberName r.suffix ∈ taken :=
        h.before 1 (Nat.succ_lt_succ n.succ_pos)
      rw [if_neg (not_not.mpr hmember)]
      have hnumbered : IsFirstFree
          (fun k => numbered r.typeName r.memberName r.suffix (2 + k)) taken n :=
        ⟨h.free, fun m hm => h.before (m + 2) (by omega)⟩
      obtain ⟨k, hk, hfirst⟩ := r.exists_firstNumbered taken
      obtain rfl := hnumbered.eq hfirst
      exact hnumbered.firstFree_eq hk

namespace Record

/-- No dot in the names of the type and the method. -/
structure DotFree (r : Record) : Prop where
  typeName : '.' ∉ r.typeName.toList
  memberName : '.' ∉ r.memberName.toList

instance : DecidablePred DotFree := fun r =>
  decidable_of_iff ('.' ∉ r.typeName.toList ∧ '.' ∉ r.memberName.toList)
    ⟨fun h => ⟨h.1, h.2⟩, fun h => ⟨h.typeName, h.memberName⟩⟩

/-- How many of the earlier records have the type and the method of this one, the first record of
the type not counted. -/
def repeats (r : Record) (earlier : List Record) : Nat :=
  (earlier.filter (·.typeName = r.typeName)).tail.countP (·.memberName = r.memberName)

/-- The file name that the scheme gives to a record after earlier ones. -/
def schemeName (r : Record) (earlier : List Record) (suffix : String) : String :=
  if ∀ e ∈ earlier, e.typeName ≠ r.typeName then r.typeName ++ suffix
  else if r.repeats earlier = 0 then r.typeName ++ "." ++ r.memberName ++ suffix
  else r.typeName ++ "." ++ r.memberName ++ "." ++ toString (r.repeats earlier + 1) ++ suffix

/-- The number of candidates for records with a method that the records of their type have used
up. -/
def usedAmong (memberName : String) : List Record → Nat
  | [] => 0
  | _ :: others => others.countP (·.memberName = memberName) + 1

/-- The number of candidates for a record that earlier records have used up. -/
def used (r : Record) (earlier : List Record) : Nat :=
  usedAmong r.memberName (earlier.filter (·.typeName = r.typeName))

/-- The scheme gives a record the first candidate that is not used up. -/
theorem schemeName_eq_candidate (r : Record) (earlier : List Record) (suffix : String) :
    r.schemeName earlier suffix = (r.nameRequest suffix).candidate (r.used earlier) := by
  have hnone : (∀ e ∈ earlier, e.typeName ≠ r.typeName) ↔
      earlier.filter (·.typeName = r.typeName) = [] := by
    simp [List.filter_eq_nil_iff]
  by_cases hfirst : ∀ e ∈ earlier, e.typeName ≠ r.typeName
  · rw [schemeName, if_pos hfirst, used, hnone.mp hfirst]
    rfl
  · obtain ⟨first, others, hsame⟩ := List.exists_cons_of_ne_nil (mt hnone.mpr hfirst)
    have hused : r.used earlier = r.repeats earlier + 1 := by
      rw [used, repeats, hsame]
      rfl
    rw [schemeName, if_neg hfirst, hused]
    cases r.repeats earlier with
    | zero => rfl
    | succ k =>
      rw [if_neg k.succ_ne_zero, NameRequest.candidate, Nat.add_comm 2 k]
      rfl

/-- One more record of the type uses up a candidate for records with a method if it is the first
record of the type or has the method. -/
theorem usedAmong_concat (memberName : String) (same : List Record) (r : Record) :
    usedAmong memberName (same ++ [r]) =
      if usedAmong memberName same = 0 ∨ r.memberName = memberName then
        usedAmong memberName same + 1
      else usedAmong memberName same := by
  cases same with
  | nil => rfl
  | cons first others =>
    by_cases hmember : r.memberName = memberName
    · simp [usedAmong, List.countP_append, hmember]
    · simp [usedAmong, List.countP_append, hmember]

/-- One more record uses up a candidate only for records of its type: for all of them if it is the
first one of the type, and for those with its method otherwise. -/
theorem used_concat (q r : Record) (earlier : List Record) :
    q.used (earlier ++ [r]) =
      if r.typeName = q.typeName ∧ (q.used earlier = 0 ∨ r.memberName = q.memberName) then
        q.used earlier + 1
      else q.used earlier := by
  by_cases htype : r.typeName = q.typeName
  · simp [used, List.filter_append, usedAmong_concat, htype]
  · simp [used, List.filter_append, htype]

/-- For records of one type and one method the same candidates are used up. -/
theorem used_congr {q r : Record} (htype : q.typeName = r.typeName)
    (hmember : q.memberName = r.memberName) (earlier : List Record) :
    q.used earlier = r.used earlier := by
  rw [used, used, htype, hmember]

/-- For records of one type, candidates are used up from the first record of the type on. -/
theorem used_eq_zero_congr {q r : Record} (htype : q.typeName = r.typeName)
    (earlier : List Record) : q.used earlier = 0 ↔ r.used earlier = 0 := by
  rw [used, used, htype]
  cases earlier.filter (·.typeName = r.typeName) with
  | nil => rfl
  | cons first others => simp [usedAmong]

/-- What stands before the ending of a candidate, in its dotted parts. -/
def nameParts (r : Record) : Nat → List String
  | 0 => [r.typeName]
  | 1 => [r.typeName, r.memberName]
  | n + 2 => [r.typeName, r.memberName, toString (2 + n)]

/-- A candidate consists of its parts with dots between them and the ending. -/
theorem candidate_eq_joined (r : Record) (suffix : String) (n : Nat) :
    (r.nameRequest suffix).candidate n = Text.joined "." (r.nameParts n) ++ suffix := by
  match n with
  | 0 => rfl
  | 1 => rfl
  | n + 2 =>
    simp only [NameRequest.candidate, numbered, nameParts, Text.joined, nameRequest,
      String.append_assoc]

/-- Without dots in the names of type and method, no part of a candidate has a dot. -/
theorem DotFree.of_mem_nameParts {r : Record} (h : r.DotFree) {n : Nat} :
    ∀ part ∈ r.nameParts n, '.' ∉ part.toList := by
  have hdigits (k : Nat) : '.' ∉ (toString k).toList := by
    change '.' ∉ k.repr.toList
    rw [Nat.toList_repr]
    exact not_mem_toDigits (by decide) k
  match n with
  | 0 => simp [nameParts, h.typeName]
  | 1 => simp [nameParts, h.typeName, h.memberName]
  | n + 2 =>
    simp only [nameParts, List.forall_mem_cons]
    exact ⟨h.typeName, h.memberName, hdigits _, by simp⟩

/-- Without dots in the names, two candidates with one ending are equal only if they are offered at
the same point to records of one type and, unless they are the names of the type alone, of one
method. -/
theorem DotFree.candidate_eq_iff {q r : Record} (hq : q.DotFree) (hr : r.DotFree)
    (suffix : String) {m n : Nat} :
    (q.nameRequest suffix).candidate m = (r.nameRequest suffix).candidate n ↔
      m = n ∧ q.typeName = r.typeName ∧ (m = 0 ∨ q.memberName = r.memberName) := by
  have hparts (s : Record) (k : Nat) : s.nameParts k ≠ [] := by
    unfold nameParts
    split <;> simp
  have hsplit : (q.nameRequest suffix).candidate m = (r.nameRequest suffix).candidate n ↔
      q.nameParts m = r.nameParts n := by
    rw [candidate_eq_joined, candidate_eq_joined, String.append_left_inj]
    constructor
    · intro h
      have hpieces := congrArg (Text.splitAt '.') h
      rwa [Text.splitAt_joined (hparts q m) hq.of_mem_nameParts,
        Text.splitAt_joined (hparts r n) hr.of_mem_nameParts] at hpieces
    · exact congrArg _
  have hnumber (a b : Nat) : (2 + a).repr = (2 + b).repr ↔ a = b :=
    toString_nat_injective.eq_iff.trans Nat.add_left_cancel_iff
  -- Candidates offered at different points have different numbers of parts or different numbers.
  rw [hsplit]
  rcases m with _ | _ | m <;> rcases n with _ | _ | n <;>
    simp [nameParts, hnumber, and_comm, and_assoc]

end Record

/-- What is taken after earlier records: of the candidates for each record without dots in its
names as many as they have used up. -/
def TakenAfter (suffix : String) (earlier : List Record) (taken : List String) : Prop :=
  ∀ q : Record, q.DotFree → ∀ n,
    (q.nameRequest suffix).candidate n ∈ taken ↔ n < q.used earlier

namespace TakenAfter

variable {suffix : String} {earlier : List Record} {taken : List String} {r : Record}

/-- Nothing is taken at the start. -/
theorem nil (suffix : String) : TakenAfter suffix [] [] := by
  intro q _ n
  simp [Record.used, Record.usedAmong]

/-- The next record is given the first candidate that is not used up. -/
theorem choose_eq (h : TakenAfter suffix earlier taken) (hr : r.DotFree) :
    choose taken r.typeName r.memberName suffix =
      (r.nameRequest suffix).candidate (r.used earlier) := by
  have hfirst : IsFirstFree (r.nameRequest suffix).candidate taken (r.used earlier) := by
    refine ⟨?_, fun m hm => (h r hr m).mpr hm⟩
    rw [h r hr]
    exact Nat.lt_irrefl _
  exact hfirst.choose_eq

/-- The candidate of the next record is taken after it, and no other one is. -/
theorem concat (h : TakenAfter suffix earlier taken) (hr : r.DotFree) :
    TakenAfter suffix (earlier ++ [r])
      ((r.nameRequest suffix).candidate (r.used earlier) :: taken) := by
  intro q hq n
  rw [List.mem_cons, h q hq, hq.candidate_eq_iff hr, Record.used_concat]
  by_cases htype : q.typeName = r.typeName
  · by_cases hmember : q.memberName = r.memberName
    · simp only [htype, hmember, Record.used_congr htype hmember earlier, or_true, and_true,
        if_true]
      omega
    · have hzero := Record.used_eq_zero_congr htype earlier
      simp only [htype, hmember, Ne.symm hmember, true_and, or_false]
      split <;> omega
  · simp [htype, Ne.symm htype]

/-- A run gives the records that come next the names of the scheme. -/
theorem allocate_eq (h : TakenAfter suffix earlier taken) {later : List Record}
    (hlater : ∀ r ∈ later, r.DotFree) :
    allocate taken (later.map (·.nameRequest suffix)) =
      List.ofFn fun i : Fin later.length =>
        later[i].schemeName (earlier ++ later.take i) suffix := by
  induction later generalizing earlier taken with
  | nil => rfl
  | cons r rest ih =>
    obtain ⟨hr, hrest⟩ := List.forall_mem_cons.mp hlater
    have hname : choose taken r.typeName r.memberName suffix = r.schemeName earlier suffix := by
      rw [h.choose_eq hr, Record.schemeName_eq_candidate]
    have hnext := ih (h.concat hr) hrest
    rw [← Record.schemeName_eq_candidate] at hnext
    rw [List.map_cons, allocate, List.ofFn_succ]
    simp only [Record.nameRequest] at hnext ⊢
    rw [hname, hnext]
    simp

end TakenAfter

/-- The fragments of a batch without dots in the names of its types and methods are named after
the scheme: each name depends on its record and the records before it alone. -/
theorem Batch.fragments_follow_scheme {b : Batch} {suffix : String} {fragments : List Fragment}
    (hdots : ∀ r ∈ b, r.DotFree) (h : b.fragments suffix = .ok fragments) :
    fragments.map (·.hintName) =
      List.ofFn fun i : Fin b.length => b[i].schemeName (b.take i) suffix := by
  obtain ⟨-, hnames, -⟩ := fragments_eq_ok h
  rw [hnames]
  exact (TakenAfter.nil suffix).allocate_eq hdots

/-- Records of two types, some of them of one type and one method. -/
def repeatedRecords : Batch :=
  [("Robot", "Speak"), ("Robot", "Wave"), ("Robot", "Speak"), ("Greeter", "Speak"),
    ("Robot", "Speak"), ("Robot", "Speak")].map fun (typeName, memberName) =>
      { memberName := memberName, parameterName := "text", typeName := typeName
        inNamespace := ⟨[]⟩, typeKind := .classKind, node := ⟨Tree.empty ⟨0⟩, Tree.root _⟩ }

/-- The first record of a method is counted only if it is not the first one of its type, and the
first number is two, also before an ending that looks like a number. -/
theorem fragments_follow_scheme_repeatedRecords :
    (∀ r ∈ repeatedRecords, r.DotFree) ∧
      ∃ fragments, repeatedRecords.fragments ".2.g.cs" = .ok fragments ∧
        fragments.map (·.hintName) =
          ["Robot.2.g.cs", "Robot.Wave.2.g.cs", "Robot.Speak.2.g.cs", "Greeter.2.g.cs",
            "Robot.Speak.2.2.g.cs", "Robot.Speak.3.2.g.cs"] := by
  have hdots : ∀ r ∈ repeatedRecords, r.DotFree := by decide
  have hkinds : ∀ r ∈ repeatedRecords, r.typeKind ≠ .enumKind ∧ r.typeKind ≠ .delegateKind := by
    decide
  obtain ⟨fragments, hfragments, -⟩ := Batch.fragments_ok hkinds ".2.g.cs"
  refine ⟨hdots, fragments, hfragments, ?_⟩
  rw [Batch.fragments_follow_scheme hdots hfragments]
  decide

end StubGen

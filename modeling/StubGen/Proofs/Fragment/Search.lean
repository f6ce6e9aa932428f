import StubGen.Proofs.Fragment.Naming

/-!
# The search for a free file name

A request is offered the name of its type, then that of its type and its method. If both are
taken, the numbered names are tried one after the other, from two on. That search has no bound
of its own. It ends because numbered names differ and only so many names are taken: one try
more than names are taken always suffices, and what a search would hand out that finds
nothing does not matter.

Nothing is assumed about the requests. A type may be named like a type and a method of another
request, a method like a number, and every request may have an ending of its own.
-/

namespace StubGen

open FileName

namespace NameRequest

/-- The first numbered name that is not taken, from two on and within the given number of
tries. -/
def search? (r : NameRequest) (taken : List String) (tries : Nat) : Option String :=
  ((List.range tries).map fun k => numbered r.typeName r.memberName r.suffix (2 + k)).find?
    (· ∉ taken)

/-- The name of a request if the search has the given number of tries, and hands out `fallback`
if it finds nothing. -/
def nameWithin (r : NameRequest) (taken : List String) (tries : Nat) (fallback : String) :
    String :=
  (([ofType r.typeName r.suffix, ofMember r.typeName r.memberName r.suffix].find?
    (· ∉ taken)).or (r.search? taken tries)).getD fallback

end NameRequest

namespace FileName

variable {names : Nat → String} {taken : List String} {n : Nat}

/-- There is only one first free name. -/
theorem IsFirstFree.eq {m : Nat} (hm : IsFirstFree names taken m)
    (hn : IsFirstFree names taken n) : m = n := by
  rcases Nat.lt_trichotomy m n with hlt | heq | hlt
  · exact absurd (hn.before m hlt) hm.free
  · exact heq
  · exact absurd (hm.before n hlt) hn.free

/-- Enough tries find the first free name. -/
theorem IsFirstFree.find?_range (h : IsFirstFree names taken n) {tries : Nat} (hn : n < tries) :
    ((List.range tries).map names).find? (· ∉ taken) = some (names n) := by
  have hindex : (List.range tries).find? (fun k => names k ∉ taken) = some n := by
    apply List.find?_range_eq_some.mpr
    refine ⟨by simpa using h.free, List.mem_range.mpr hn, ?_⟩
    intro m hm
    simpa using h.before m hm
  rw [List.find?_map]
  exact congrArg (Option.map names) hindex

end FileName

namespace NameRequest

/-- The numbered names of a request have a first one that is free. -/
theorem exists_firstNumbered (r : NameRequest) (taken : List String) :
    ∃ n ≤ taken.length,
      IsFirstFree (fun k => numbered r.typeName r.memberName r.suffix (2 + k)) taken n :=
  exists_isFirstFree (numbered_add_injective r.typeName r.memberName r.suffix 2) taken

/-- One try more than names are taken suffices to find a free name. -/
theorem exists_search?_eq_some (r : NameRequest) (taken : List String) :
    ∃ tries ≤ taken.length + 1, ∃ name ∉ taken, r.search? taken tries = some name := by
  obtain ⟨n, hn, hfirst⟩ := r.exists_firstNumbered taken
  exact ⟨n + 1, Nat.succ_le_succ hn, _, hfirst.free, hfirst.find?_range n.lt_succ_self⟩

/-- The name that is chosen is the one that the search finds, however many tries it has beyond
those it needs and whatever it would hand out otherwise. -/
theorem choose_eq_nameWithin (r : NameRequest) (taken : List String) (more : Nat)
    (fallback : String) :
    choose taken r.typeName r.memberName r.suffix =
      r.nameWithin taken (taken.length + 1 + more) fallback := by
  obtain ⟨n, hn, hfirst⟩ := r.exists_firstNumbered taken
  have hsearch : r.search? taken (taken.length + 1 + more) =
      some (numbered r.typeName r.memberName r.suffix (2 + n)) :=
    hfirst.find?_range (by omega)
  unfold choose nameWithin
  rw [hsearch]
  split
  · rename_i htype
    rw [List.find?_cons_of_pos (by simpa using htype)]
    rfl
  · rename_i htype
    rw [List.find?_cons_of_neg (by simpa using htype)]
    split
    · rename_i hmember
      rw [List.find?_cons_of_pos (by simpa using hmember)]
      rfl
    · rename_i hmember
      rw [List.find?_cons_of_neg (by simpa using hmember)]
      exact hfirst.firstFree_eq hn

/-- Only what is taken and how much decides about the name, not the order. -/
theorem nameWithin_reverse (r : NameRequest) (taken : List String) (tries : Nat)
    (fallback : String) :
    r.nameWithin taken.reverse tries fallback = r.nameWithin taken tries fallback := by
  simp only [nameWithin, search?, List.mem_reverse]

end NameRequest

/-- However many requests were answered, all names are different. The search through the
numbered names of any further request ends at a free one after at most one try more than names
were handed out, so the request is given the name that the search without a bound finds,
and never the fallback. -/
theorem FileName.allocate_nodup_and_found (calls : List NameRequest) :
    (allocate [] calls).Nodup ∧ (allocate [] calls).length = calls.length ∧
      ∀ next : NameRequest,
        let taken := allocate [] calls
        (∃ tries ≤ taken.length + 1, ∃ name ∉ taken, next.search? taken tries = some name) ∧
          ∀ (more : Nat) (fallback : String),
            allocate [] (calls ++ [next]) =
              taken ++ [next.nameWithin taken (taken.length + 1 + more) fallback] := by
  refine ⟨allocate_nodup [] calls, length_allocate [] calls, fun next => ?_⟩
  refine ⟨next.exists_search?_eq_some _, fun more fallback => ?_⟩
  rw [allocate_append, allocate, allocate, List.append_nil,
    next.choose_eq_nameWithin _ more fallback, List.length_reverse, next.nameWithin_reverse]

/-- Names of other types and methods can take numbers away. -/
example : allocate [] [⟨"A", "B", ".cs"⟩, ⟨"A.B", "C", ".cs"⟩, ⟨"A", "B.2", ".cs"⟩,
    ⟨"A", "B", ".cs"⟩] = ["A.cs", "A.B.cs", "A.B.2.cs", "A.B.3.cs"] := by
  decide

end StubGen

import Mathlib.Data.List.Basic
import StubGen.Path

/-!
# Steps of joined paths

Joining a relative path to another one puts its steps after those of the other, except that a
dot at its start is no longer a step. In particular a path that goes on with names has these
names as its last steps.
-/

namespace StubGen

namespace PathComponent

/-- The step that the first piece stands for. -/
def ofFirstPiece? (piece : String) : Option PathComponent :=
  if piece = "" then some root
  else if piece = "." then some here
  else ofPiece? piece

end PathComponent

namespace Path

open Text

/-- A text that can stand between slashes and is neither of the two dots. -/
structure IsName (text : String) : Prop where
  ne_empty : text ≠ ""
  ne_here : text ≠ "."
  ne_up : text ≠ ".."
  no_slash : '/' ∉ text.toList

instance (text : String) : Decidable (IsName text) :=
  decidable_of_iff (text ≠ "" ∧ text ≠ "." ∧ text ≠ ".." ∧ '/' ∉ text.toList)
    ⟨fun ⟨h₁, h₂, h₃, h₄⟩ => ⟨h₁, h₂, h₃, h₄⟩,
      fun h => ⟨h.ne_empty, h.ne_here, h.ne_up, h.no_slash⟩⟩

/-- A name is the only piece of its path. -/
theorem IsName.pieces {text : String} (h : IsName text) : (⟨text⟩ : Path).pieces = [text] := by
  simp [Path.pieces, splitAt, pieces_of_not_mem h.no_slash]

/-- A name is a step as it stands. -/
theorem IsName.ofPiece? {text : String} (h : IsName text) :
    PathComponent.ofPiece? text = some (.name text) := by
  simp [PathComponent.ofPiece?, h.ne_empty, h.ne_here, h.ne_up]

/-- A name starts in the working directory. -/
theorem IsName.isAbsolute {text : String} (h : IsName text) :
    (⟨text⟩ : Path).isAbsolute = false := by
  refine Bool.eq_false_iff.mpr fun habs => h.no_slash ?_
  exact (List.isPrefixOf_iff_prefix.mp habs).subset (by decide)

/-- A path has at least one piece. -/
theorem pieces_ne_nil (p : Path) : p.pieces ≠ [] := by
  simpa [Path.pieces, splitAt] using Text.pieces_ne_nil '/' p.text.toList

/-- No piece has a slash. -/
theorem no_slash_of_mem_pieces {p : Path} {piece : String} (h : piece ∈ p.pieces) :
    '/' ∉ piece.toList := by
  obtain ⟨cs, hcs, rfl⟩ := List.mem_map.mp h
  rw [String.toList_ofList]
  exact not_mem_of_mem_pieces '/' _ cs hcs

/-- What is left of the pieces once those at the end that are no step are gone. -/
theorem steps_subset_pieces (p : Path) : p.steps ⊆ p.pieces := by
  intro piece hpiece
  have hrev := (List.dropWhile_sublist _).subset (List.mem_reverse.mp hpiece)
  exact List.mem_reverse.mp hrev

/-- The steps of pieces, unless the only piece is empty. -/
theorem componentsOf_cons {first : String} {rest : List String} (h : first = "" → rest ≠ []) :
    componentsOf (first :: rest) =
      (PathComponent.ofFirstPiece? first).toList ++ rest.filterMap PathComponent.ofPiece? := by
  by_cases hempty : first = ""
  · obtain ⟨next, rest, rfl⟩ := List.exists_cons_of_ne_nil (h hempty)
    rw [hempty]
    rfl
  by_cases hhere : first = "."
  · rw [hhere]
    rfl
  have hplain : componentsOf (first :: rest) =
      (first :: rest).filterMap PathComponent.ofPiece? := by
    unfold componentsOf
    split <;> simp_all
  rw [hplain, List.filterMap_cons, PathComponent.ofFirstPiece?, if_neg hempty, if_neg hhere]
  cases PathComponent.ofPiece? first <;> rfl

/-- A path with a text has at least one piece, and more than one if the first is empty. -/
theorem exists_pieces {p : Path} (h : p.text ≠ "") :
    ∃ first rest, p.pieces = first :: rest ∧ (first = "" → rest ≠ []) := by
  obtain ⟨first, rest, hpieces⟩ :=
    List.exists_cons_of_ne_nil (Text.pieces_ne_nil '/' p.text.toList)
  refine ⟨String.ofList first, rest.map String.ofList, ?_, ?_⟩
  · rw [Path.pieces, splitAt, hpieces, List.map_cons]
  · intro hfirst hrest
    obtain rfl : first = [] := by simpa using congrArg String.toList hfirst
    obtain rfl : rest = [] := List.map_eq_nil_iff.mp hrest
    exact h (String.toList_eq_nil_iff.mp (eq_nil_of_pieces hpieces))

/-- A path is absolute if its first piece is empty, provided that this is not its only one. -/
theorem isAbsolute_iff {p : Path} {first : String} {rest : List String}
    (hpieces : p.pieces = first :: rest) (hfirst : first = "" → rest ≠ []) :
    p.isAbsolute = true ↔ first = "" := by
  unfold Path.pieces splitAt at hpieces
  unfold isAbsolute startsWith
  cases htext : p.text.toList with
  | nil =>
    rw [htext] at hpieces
    obtain ⟨rfl, rfl⟩ := List.cons.inj hpieces
    exact absurd rfl (hfirst rfl)
  | cons c cs =>
    rw [htext, Text.pieces] at hpieces
    by_cases hslash : c = '/'
    · rw [if_pos hslash] at hpieces
      obtain ⟨rfl, -⟩ := List.cons.inj hpieces
      simp [hslash]
    · rw [if_neg hslash] at hpieces
      have hne : first ≠ "" := by
        split at hpieces <;> obtain ⟨rfl, -⟩ := List.cons.inj hpieces <;> simp
      simp [hne, Ne.symm hslash]

/-- Pieces after the first ones add their steps, and an empty piece adds none. -/
theorem componentsOf_append {first : String} {rest more : List String} (h : more ≠ []) :
    componentsOf (first :: rest ++ more) =
      componentsOf (first :: rest ++ [""]) ++ more.filterMap PathComponent.ofPiece? := by
  rw [List.cons_append, List.cons_append,
    componentsOf_cons fun _ => List.append_ne_nil_of_right_ne_nil rest h,
    componentsOf_cons fun _ => List.append_ne_nil_of_right_ne_nil rest (List.cons_ne_nil _ _)]
  simp [PathComponent.ofPiece?]

/-- The pieces of two texts with a slash in between. -/
theorem pieces_append_slash (before after : List Char) :
    (⟨String.ofList (before ++ '/' :: after)⟩ : Path).pieces =
      (⟨String.ofList before⟩ : Path).pieces ++ (⟨String.ofList after⟩ : Path).pieces := by
  simp only [Path.pieces, splitAt, String.toList_ofList, pieces_append_cons, List.map_append]

/-- Joining a relative path to one that ends in a slash. -/
theorem components_join_of_slash {q : Path} (hq : q.isAbsolute = false) (before : List Char) :
    (join ⟨String.ofList (before ++ ['/'])⟩ q).components =
      components ⟨String.ofList (before ++ ['/'])⟩ ++
        q.pieces.filterMap PathComponent.ofPiece? := by
  have hjoin : join ⟨String.ofList (before ++ ['/'])⟩ q =
      ⟨String.ofList (before ++ '/' :: q.text.toList)⟩ := by
    have hends : endsWith "/" (String.ofList (before ++ ['/'])) = true :=
      List.isSuffixOf_iff_suffix.mpr ⟨before, by simp⟩
    rw [join, if_neg (by simp [hq]), if_pos hends]
    refine congrArg Path.mk (String.toList_inj.mp ?_)
    simp
  obtain ⟨first, rest, hpieces⟩ :=
    List.exists_cons_of_ne_nil (pieces_ne_nil ⟨String.ofList before⟩)
  have hslash : (⟨String.ofList []⟩ : Path).pieces = [""] := rfl
  rw [hjoin, components, components, pieces_append_slash, pieces_append_slash, hslash, hpieces,
    String.ofList_toList, componentsOf_append (pieces_ne_nil q)]

/-- Joining a relative path adds its steps, apart from a dot at its start. -/
theorem components_join {p q : Path} (hp : p.text ≠ "") (hq : q.isAbsolute = false) :
    (p.join q).components = p.components ++ q.pieces.filterMap PathComponent.ofPiece? := by
  by_cases hslash : endsWith "/" p.text = true
  · obtain ⟨before, hbefore⟩ := List.isSuffixOf_iff_suffix.mp hslash
    obtain rfl : p = ⟨String.ofList (before ++ ['/'])⟩ :=
      congrArg Path.mk (by rw [← String.ofList_toList (s := p.text), ← hbefore]; rfl)
    exact components_join_of_slash hq before
  obtain ⟨first, rest, hpieces, hfirst⟩ := exists_pieces hp
  have hjoin : p.join q = ⟨String.ofList (p.text.toList ++ '/' :: q.text.toList)⟩ := by
    rw [join, if_neg (by simp [hq, hp]), if_neg hslash]
    refine congrArg Path.mk (String.toList_inj.mp ?_)
    simp
  have hopen : componentsOf (first :: rest ++ [""]) = componentsOf (first :: rest) := by
    rw [List.cons_append, componentsOf_cons hfirst, componentsOf_cons (by simp)]
    simp [PathComponent.ofPiece?]
  rw [hjoin, components, components, pieces_append_slash, String.ofList_toList,
    String.ofList_toList, hpieces, componentsOf_append (pieces_ne_nil q), hopen]

/-- The pieces of a joined path are those of both, except that an empty piece at the end of the
first may be gone. -/
theorem pieces_join (p : Path) {q : Path} (hq : q.isAbsolute = false) :
    ∃ before, (p.join q).pieces = before ++ q.pieces ∧
      (p.pieces = before ∨ p.pieces = before ++ [""]) := by
  by_cases hp : p.text = ""
  · refine ⟨[], by simp [join, hp], .inr ?_⟩
    rw [Path.pieces, hp]
    rfl
  by_cases hslash : endsWith "/" p.text = true
  · obtain ⟨before, hbefore⟩ := List.isSuffixOf_iff_suffix.mp hslash
    have htext : p = ⟨String.ofList (before ++ '/' :: [])⟩ :=
      congrArg Path.mk (by rw [← String.ofList_toList (s := p.text), ← hbefore]; rfl)
    refine ⟨(⟨String.ofList before⟩ : Path).pieces, ?_, .inr ?_⟩
    · have hjoin : p.join q = ⟨String.ofList (before ++ '/' :: q.text.toList)⟩ := by
        rw [join, if_neg (by simp [hq, hp]), if_pos hslash]
        refine congrArg Path.mk (String.toList_inj.mp ?_)
        simp [htext]
      rw [hjoin, pieces_append_slash, String.ofList_toList]
    · rw [htext, pieces_append_slash]
      rfl
  · refine ⟨p.pieces, ?_, .inl rfl⟩
    have hjoin : p.join q = ⟨String.ofList (p.text.toList ++ '/' :: q.text.toList)⟩ := by
      rw [join, if_neg (by simp [hq, hp]), if_neg hslash]
      refine congrArg Path.mk (String.toList_inj.mp ?_)
      simp
    rw [hjoin, pieces_append_slash, String.ofList_toList, String.ofList_toList]

/-- A joined path starts where the first one starts. -/
theorem isAbsolute_join (p : Path) {q : Path} (hq : q.isAbsolute = false) :
    (p.join q).isAbsolute = p.isAbsolute := by
  by_cases hp : p.text = ""
  · rw [join, if_pos (by simp [hp]), hq, isAbsolute, hp]
    rfl
  · obtain ⟨c, cs, hchars⟩ := List.exists_cons_of_ne_nil (mt String.toList_eq_nil_iff.mp hp)
    rw [join, if_neg (by simp [hq, hp])]
    split <;> simp [isAbsolute, startsWith, hchars, List.isPrefixOf]

/-- A relative path that is joined to one with a text has a text. -/
theorem text_join_ne_empty {p q : Path} (hp : p.text ≠ "") (hq : q.isAbsolute = false) :
    (p.join q).text ≠ "" := by
  have hchars : p.text.toList ≠ [] := mt String.toList_eq_nil_iff.mp hp
  rw [join, if_neg (by simp [hq, hp])]
  refine mt String.toList_eq_nil_iff.mpr ?_
  split <;> simp [hchars]

/-- A path with one more name is not empty. -/
theorem text_join_name_ne_empty (p : Path) {name : String} (hname : IsName name) :
    (p.join ⟨name⟩).text ≠ "" := by
  rcases eq_or_ne p.text "" with hempty | hp
  · rw [join, if_pos (by simp [hempty])]
    exact hname.ne_empty
  · exact text_join_ne_empty hp hname.isAbsolute

/-- A path that consists of names goes on from another one with these names. -/
theorem components_join_names {p q : Path} (hp : p.text ≠ "") {names : List String}
    (hne : names ≠ []) (h : q.components = names.map .name) :
    q.isAbsolute = false ∧ (p.join q).components = p.components ++ names.map .name := by
  have htext : q.text ≠ "" := by
    intro hempty
    obtain rfl : q = ⟨""⟩ := congrArg Path.mk hempty
    exact hne (List.map_eq_nil_iff.mp h.symm)
  obtain ⟨first, rest, hpieces, hfirst⟩ := exists_pieces htext
  have hsteps := h
  rw [Path.components, hpieces, componentsOf_cons hfirst] at hsteps
  -- Neither the root nor a leading dot is a name.
  have hnot (step : PathComponent) (hstep : step ∈ (PathComponent.ofFirstPiece? first).toList) :
      ∃ name, step = .name name := by
    have hmem : step ∈ names.map PathComponent.name := hsteps ▸ List.mem_append_left _ hstep
    obtain ⟨name, -, rfl⟩ := List.mem_map.mp hmem
    exact ⟨name, rfl⟩
  have hroot : first ≠ "" := by
    rintro rfl
    obtain ⟨name, hname⟩ := hnot .root (by simp [PathComponent.ofFirstPiece?])
    contradiction
  have hhere : first ≠ "." := by
    rintro rfl
    obtain ⟨name, hname⟩ := hnot .here (by simp [PathComponent.ofFirstPiece?])
    contradiction
  have hq : q.isAbsolute = false :=
    Bool.eq_false_iff.mpr (mt (isAbsolute_iff hpieces hfirst).mp hroot)
  refine ⟨hq, ?_⟩
  rw [components_join hp hq, ← hsteps, hpieces, PathComponent.ofFirstPiece?, if_neg hroot,
    if_neg hhere, List.filterMap_cons]
  cases PathComponent.ofPiece? first <;> rfl

/-- The path that goes on with a chain of names. -/
def extend (p : Path) : List String → Path
  | [] => p
  | name :: rest => (p.join ⟨name⟩).extend rest

/-- A path with one more name. -/
theorem components_join_name {p : Path} (hp : p.text ≠ "") {name : String} (h : IsName name) :
    (p.join ⟨name⟩).components = p.components ++ [.name name] := by
  rw [components_join hp h.isAbsolute, h.pieces]
  simp [h.ofPiece?]

/-- The names are the last steps. -/
theorem components_extend {p : Path} (hp : p.text ≠ "") {names : List String}
    (h : ∀ name ∈ names, IsName name) :
    (p.extend names).components = p.components ++ names.map .name := by
  induction names generalizing p with
  | nil => simp [extend]
  | cons name rest ih =>
    obtain ⟨hname, hrest⟩ := List.forall_mem_cons.mp h
    rw [extend, ih (text_join_ne_empty hp hname.isAbsolute) hrest, components_join_name hp hname]
    simp

/-- A path that has the steps of `p` and then nothing but names. -/
def SpelledFrom (p e : Path) : Prop :=
  ∃ names : List String, e.components = p.components ++ names.map .name

/-- Without double dots, pieces other than the first stand for names. -/
theorem exists_names_of_pieces {pieces : List String} (h : ".." ∉ pieces) :
    ∃ names : List String, pieces.filterMap PathComponent.ofPiece? = names.map .name := by
  induction pieces with
  | nil => exact ⟨[], rfl⟩
  | cons piece rest ih =>
    obtain ⟨hpiece, hrest⟩ := not_or.mp (mt List.mem_cons.mpr h)
    obtain ⟨names, hnames⟩ := ih hrest
    by_cases hnone : piece = "" ∨ piece = "."
    · exact ⟨names, by simp [PathComponent.ofPiece?, hnone, hnames]⟩
    · exact ⟨piece :: names, by simp [PathComponent.ofPiece?, hnone, Ne.symm hpiece, hnames]⟩

/-- A relative path without double dots that is joined to `p` goes on with names. -/
theorem spelledFrom_join {p q : Path} (hp : p.text ≠ "") (hq : q.isAbsolute = false)
    (hup : ".." ∉ q.pieces) : p.SpelledFrom (p.join q) := by
  obtain ⟨names, hnames⟩ := exists_names_of_pieces hup
  exact ⟨names, by rw [components_join hp hq, hnames]⟩

end Path

end StubGen

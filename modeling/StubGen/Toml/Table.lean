/-!
# TOML tables

The values of a TOML document, and the rules by which its lines fill tables. A table
remembers how it came about, because that decides what may still be added: a table with a
header of its own may not get a second one, and dotted keys may only enter tables that no
header has opened.
-/

namespace StubGen.Toml

/-- How a table came about. -/
inductive Origin where
  /-- It has a header. -/
  | header
  /-- It only stands on the way to a table with a header. -/
  | implied
  /-- It stands on the way to the last part of a dotted key. -/
  | dotted
  /-- It is written in curly brackets. -/
  | inlined
deriving DecidableEq, Repr, Inhabited

/-- A value. -/
inductive Value where
  | text (content : String)
  | flag (content : Bool)
  /-- A number or a date. -/
  | quantity
  | array (items : List Value)
  /-- The tables that were collected under double headers, first to last. -/
  | tables (items : List (List (String × Value)))
  | table (origin : Origin) (entries : List (String × Value))
deriving Inhabited

/-- Keys with their values, in the order of their first appearance. -/
abbrev Entries := List (String × Value)

namespace Entries

/-- The value of a key. -/
def find? (entries : Entries) (key : String) : Option Value :=
  (List.find? (·.1 == key) entries).map (·.2)

/-- The entries with another value for a key that they have. -/
def replace (entries : Entries) (key : String) (value : Value) : Entries :=
  entries.map fun entry => if entry.1 = key then (key, value) else entry

/-- Whether a dotted key may go on into a table. A key that ends there needs a table made by
dotted keys; a key that goes further may also pass an implied one. -/
def mayExtend (origin : Origin) (further : List String) : Bool :=
  origin == .dotted || (origin == .implied && !further.isEmpty)

/-- The entries after a dotted key, given as its first and its other parts, was assigned. -/
def assign (entries : Entries) (key : String) : List String → Value → Option Entries
  | [], value =>
    if (entries.find? key).isSome then none else some (entries ++ [(key, value)])
  | next :: further, value =>
    match entries.find? key with
    | none =>
      (assign [] next further value).map fun below => entries ++ [(key, .table .dotted below)]
    | some (.table origin below) =>
      if mayExtend origin further then
        (assign below next further value).map fun below' =>
          entries.replace key (.table origin below')
      else none
    | some (.tables items) =>
      if further.isEmpty then none
      else
        (assign (items.getLastD []) next further value).map fun last =>
          entries.replace key (.tables (items.dropLast ++ [last]))
    | some _ => none

/-- Changes the table in which the last part of a header's path stands. Tables that are
missing on the way are implied; of collected tables the last one is meant. -/
def changeParent (change : Entries → String → Option Entries) (entries : Entries)
    (key : String) : List String → Option Entries
  | [] => change entries key
  | next :: further =>
    match entries.find? key with
    | none =>
      (changeParent change [] next further).map fun below =>
        entries ++ [(key, .table .implied below)]
    | some (.table .inlined _) => none
    | some (.table origin below) =>
      (changeParent change below next further).map fun below' =>
        entries.replace key (.table origin below')
    | some (.tables items) =>
      (changeParent change (items.getLastD []) next further).map fun last =>
        entries.replace key (.tables (items.dropLast ++ [last]))
    | some _ => none

/-- Opens a table and fills it. Only an implied table may exist already. -/
def openTable (fill : Entries → Option Entries) (entries : Entries) (key : String) :
    Option Entries :=
  match entries.find? key with
  | none => (fill []).map fun content => entries ++ [(key, .table .header content)]
  | some (.table .implied below) =>
    (fill below).map fun content => entries.replace key (.table .header content)
  | some _ => none

/-- Collects one more table under a key and fills it. -/
def collectTable (fill : Entries → Option Entries) (entries : Entries) (key : String) :
    Option Entries :=
  match entries.find? key with
  | none => (fill []).map fun content => entries ++ [(key, .tables [content])]
  | some (.tables items) =>
    (fill []).map fun content => entries.replace key (.tables (items ++ [content]))
  | some _ => none

end Entries

/-- A key as written: its first part and the parts after the dots. -/
structure Key where
  first : String
  further : List String
deriving DecidableEq, Repr, Inhabited

/-- A key with its value. -/
structure Assignment where
  key : Key
  value : Value
deriving Inhabited

namespace Assignment

/-- The entries after a list of assignments. -/
def all (assignments : List Assignment) (entries : Entries) : Option Entries :=
  assignments.foldlM (fun es a => Entries.assign es a.key.first a.key.further a.value) entries

end Assignment

/-- A header with the assignments below it. -/
structure Section where
  key : Key
  /-- Whether the header has double brackets. -/
  collects : Bool
  assignments : List Assignment
deriving Inhabited

namespace Section

/-- The entries after a section. -/
def addTo (entries : Entries) (s : Section) : Option Entries :=
  let fill := Assignment.all s.assignments
  Entries.changeParent (if s.collects then Entries.collectTable fill else Entries.openTable fill)
    entries s.key.first s.key.further

end Section

end StubGen.Toml

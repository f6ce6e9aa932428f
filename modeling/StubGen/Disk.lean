import StubGen.Disk.Directory
import StubGen.Path

/-!
# Disks

A disk is a directory tree together with the working directory, in which relative paths
start. There are no links, so a path leads to at most one place, and a double dot leads
back to where the path came from. Every step of a path but the last has to lead to a
directory that exists.
-/

namespace StubGen

/-- A directory tree and the working directory in it. -/
structure Disk where
  root : Directory
  /-- The names that lead from the root to the working directory. -/
  working : List String
deriving DecidableEq, Inhabited

namespace Disk

/-- A disk that holds nothing but its working directory. -/
def ofWorking (names : List String) (entries : Directory) : Disk where
  root := Directory.under names entries
  working := names

/-- The longest name of an entry, in bytes. -/
def longestName : Nat := 255

/-- The longest text of a path, in bytes. -/
def longestPath : Nat := 4095

/-- A path that the disk looks at: not empty, not too long, without a null character. -/
def accepts (p : Path) : Bool :=
  p.text != "" && p.text.utf8ByteSize ≤ longestPath && !p.text.toList.contains '\x00'

/-- A name that an entry can have. -/
def fits (name : String) : Bool := name.utf8ByteSize ≤ longestName

/-- Where a path starts. -/
def startOf (d : Disk) (p : Path) : List String := if p.isAbsolute then [] else d.working

/-- The place that a piece of a path leads to from a place, which has to be a directory. -/
def step? (root : Directory) (place : List String) (piece : String) : Option (List String) :=
  if root.isDirectoryAt place then
    if piece = "" ∨ piece = "." then some place
    else if piece = ".." then some place.dropLast
    else if (root.entryAt? (place ++ [piece])).isSome then some (place ++ [piece])
    else none
  else none

/-- The place that pieces of a path lead to. -/
def follow? (root : Directory) (place : List String) : List String → Option (List String)
  | [] => some place
  | piece :: rest => (step? root place piece).bind fun next => follow? root next rest

/-- The place that a path leads to, if it exists. -/
def place? (d : Disk) (p : Path) : Option (List String) :=
  if accepts p then follow? d.root (d.startOf p) p.pieces else none

/-- What a path leads to. -/
def entry? (d : Disk) (p : Path) : Option DirectoryEntry :=
  (d.place? p).bind d.root.entryAt?

/-- Whether a path leads to anything. -/
def holds (d : Disk) (p : Path) : Bool := (d.entry? p).isSome

/-- The content of the file that a path leads to. -/
def bytes? (d : Disk) (p : Path) : Option ByteArray :=
  match d.entry? p with
  | some (.file content) => some content
  | _ => none

/-- The entries of the directory that a path leads to. -/
def entries? (d : Disk) (p : Path) : Option Directory :=
  match d.entry? p with
  | some (.directory entries) => some entries
  | _ => none

/-- Whether a path leads to a file. -/
def isFile (d : Disk) (p : Path) : Bool := (d.bytes? p).isSome

/-- Whether a path leads to a directory. -/
def isDirectory (d : Disk) (p : Path) : Bool := (d.entries? p).isSome

/-- The text of the file that a path leads to, if it is valid UTF-8. -/
def text? (d : Disk) (p : Path) : Option String :=
  (d.bytes? p).bind String.fromUTF8?

/-- Follows pieces of a path and makes the directories that are missing on the way. The
place is missing if a file stands in the way or a name cannot be given; what was made
before stays. -/
def makeAlong (root : Directory) (place : List String) :
    List String → Directory × Option (List String)
  | [] => (root, some place)
  | piece :: rest =>
    if piece = "" ∨ piece = "." then makeAlong root place rest
    else if piece = ".." then makeAlong root place.dropLast rest
    else
      match root.entryAt? (place ++ [piece]) with
      | some (.directory _) => makeAlong root (place ++ [piece]) rest
      | some (.file _) => (root, none)
      | none =>
        if fits piece then
          makeAlong (root.setAt (.directory .empty) (place ++ [piece])) (place ++ [piece]) rest
        else (root, none)

/-- Makes directories along all pieces but the last, which has to lead to a directory that
exists. -/
def makeParents (root : Directory) (place : List String) (pieces : List String) :
    Directory × Option (List String) :=
  match makeAlong root place pieces.dropLast with
  | (root', none) => (root', none)
  | (root', some parent) =>
    (root', (follow? root' parent pieces.getLast?.toList).filter root'.isDirectoryAt)

/-- Makes the directory that a path names, and those above it. The second part tells
whether the directory is there afterwards. The empty path needs no directory. If dots end
the path, the directory before them is not made. -/
def makeDirectories (d : Disk) (p : Path) : Disk × Bool :=
  if p.text = "" then (d, true)
  else if accepts p then
    let make := if p.endsInDot then makeParents else makeAlong
    match make d.root (d.startOf p) (if p.endsInDot then p.steps else p.pieces) with
    | (root, place) => ({ d with root := root }, place.isSome)
  else (d, false)

/-- The disk without the directory that a path leads to, if it does lead to one. -/
def removeDirectory? (d : Disk) (p : Path) : Option Disk :=
  if d.isDirectory p then
    (d.place? p).map fun place => { d with root := d.root.eraseAt place }
  else none

/-- The disk after a file was written. The directory of the file has to exist, and no
directory may stand in its place. -/
def writeBytes? (d : Disk) (p : Path) (content : ByteArray) : Option Disk :=
  if accepts p then
    match p.pieces.getLast? with
    | none => none
    | some name =>
      if name = "" ∨ name = "." ∨ name = ".." ∨ !fits name then none
      else
        match follow? d.root (d.startOf p) p.pieces.dropLast with
        | none => none
        | some place =>
          if d.root.isDirectoryAt place && !d.root.isDirectoryAt (place ++ [name]) then
            some { d with root := d.root.setAt (.file content) (place ++ [name]) }
          else none
  else none

/-- The disk after a text was written as UTF-8. -/
def writeText? (d : Disk) (p : Path) (text : String) : Option Disk :=
  d.writeBytes? p text.toUTF8

/-- The disk without the file that a path leads to. A directory stays. -/
def removeFile (d : Disk) (p : Path) : Disk :=
  match d.place? p with
  | some place => if d.isFile p then { d with root := d.root.eraseAt place } else d
  | none => d

end Disk

end StubGen

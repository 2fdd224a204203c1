import StackAssembler.Entries
import StackAssembler.Files.Path

/-!
# File trees

The files and directories that a run can see, by the names on the way from the root, and the
directory in which the run takes place.  A path is followed name by name; everything but its last
component must be a directory.  Paths and the names in them have a limited length, which is counted
in bytes of UTF-8.
-/

namespace StackAssembler

/-- The names on the way from the root. -/
abbrev Place := List (List Char)

/-- Where a path starts: at the root if it begins with a slash. -/
def Path.start (path : String) (here : Place) : Place :=
  if path.toList.head? = some '/' then [] else here

/-- What there is at a place of a file tree. -/
inductive Node
  | directory
  | file (data : List UInt8)
  deriving DecidableEq, Repr

/-- A file tree. -/
structure Tree where
  /-- The directory in which the run takes place. -/
  here : Place
  /-- What there is, except for the root. -/
  nodes : List (Place × Node)
  deriving DecidableEq, Repr

namespace Tree

/-- What there is at a place. -/
def get? (tree : Tree) : Place → Option Node
  | [] => some .directory
  | place => Entries.get? tree.nodes place

/-- The tree with a node at a place. -/
def set (tree : Tree) (place : Place) (node : Node) : Tree :=
  { tree with nodes := Entries.put place node tree.nodes }

theorem get?_of_ne_root (tree : Tree) {place : Place} (h : place ≠ []) :
    tree.get? place = Entries.get? tree.nodes place := by
  cases place with
  | nil => exact absurd rfl h
  | cons part parts => rfl

/-- Below the root, setting a node changes what there is at its place and nowhere else. -/
theorem get?_set (tree : Tree) {place other : Place} (node : Node) (h : place ≠ []) :
    (tree.set place node).get? other = if other = place then some node else tree.get? other := by
  cases other with
  | nil => rw [if_neg fun e => h e.symm]; rfl
  | cons part parts =>
      rw [get?_of_ne_root _ (List.cons_ne_nil part parts),
        get?_of_ne_root _ (List.cons_ne_nil part parts)]
      exact Entries.get?_put place (part :: parts) node tree.nodes

/-- How many bytes a name in a path may have. -/
def nameLimit : Nat := 255

/-- How many bytes a path may have. -/
def pathLimit : Nat := 4095

/-- The number of bytes of a text. -/
def byteLength (text : List Char) : Nat := text.foldr (fun c length => c.utf8Size + length) 0

/-- Follows components from a place.  The place reached need not exist.  Errors name the path that
is given. -/
def follow (tree : Tree) (path : String) (place : Place) : List (List Char) →
    Except FileError Place
  | [] => .ok place
  | part :: parts =>
    match tree.get? place with
    | none => .error (.notFound path)
    | some (.file _) => .error (.notDirectory path)
    | some .directory =>
      if part = [] ∨ part = ['.'] then tree.follow path place parts
      else if part = ['.', '.'] then tree.follow path place.dropLast parts
      else if nameLimit < byteLength part then .error (.nameTooLong path)
      else tree.follow path (place ++ [part]) parts

/-- The place of a path. -/
def locate (tree : Tree) (path : String) : Except Failure Place :=
  if '\x00' ∈ path.toList then .error (.internal .nulInPath)
  else if path = "" then .error (.file (.notFound path))
  else if pathLimit < byteLength path.toList then .error (.file (.nameTooLong path))
  else (tree.follow path (Path.start path tree.here) (Path.cut path.toList)).mapError .file

/-- What there is at a path. -/
def status (tree : Tree) (path : String) : Except Failure Node := do
  match tree.get? (← tree.locate path) with
  | some node => return node
  | none => .error (.file (.notFound path))

/-- The bytes of a file. -/
def read (tree : Tree) (path : String) : Except Failure (List UInt8) := do
  match ← tree.status path with
  | .file data => return data
  | .directory => .error (.file (.isDirectory path))

/-- Writes a file, in place of the one that may be there. -/
def write (tree : Tree) (path : String) (data : List UInt8) : Except Failure Tree := do
  let place ← tree.locate path
  if tree.get? place = some .directory then .error (.file (.isDirectory path))
  else return tree.set place (.file data)

/-- The places on the way to a place, itself included, but not the root. -/
def steps (place : Place) : List Place :=
  (List.range place.length).map fun n => place.take (n + 1)

/-- Adds a directory, with all directories on the way. -/
def addDirectory (tree : Tree) (place : Place) : Tree :=
  (steps place).foldl (fun tree place => tree.set place .directory) tree

/-- Adds a file, with all directories on the way. -/
def addFile (tree : Tree) (place : Place) (data : List UInt8) : Tree :=
  (tree.addDirectory place.dropLast).set place (.file data)

/-- The tree in which there is nothing but the directory in which the run takes place. -/
def empty (here : Place) : Tree := addDirectory ⟨here, []⟩ here

/-- The places that are reached one after the other when components are followed. -/
def stops (place : Place) : List (List Char) → List Place
  | [] => []
  | part :: parts =>
    let next :=
      if part = [] ∨ part = ['.'] then place
      else if part = ['.', '.'] then place.dropLast
      else place ++ [part]
    next :: stops next parts

/-- The places that matter for what there is at a path. -/
def stopsOf (here : Place) (path : String) : List Place :=
  stops (Path.start path here) (Path.cut path.toList)

/-- The files below a place, by the names on the way from there. -/
def filesBelow (tree : Tree) (place : Place) : List (Place × List UInt8) :=
  tree.nodes.filterMap fun
    | (file, .file data) =>
      if place.isPrefixOf file then some (file.drop place.length, data) else none
    | (_, .directory) => none

end Tree

end StackAssembler

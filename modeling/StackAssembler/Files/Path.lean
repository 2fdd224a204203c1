import StackAssembler.Failure

/-!
# Paths

A path is read as its components between slashes.  Empty components and single dots count for
nothing; two dots stay, because they cannot be resolved without looking at the files.  A path from
the root starts with one slash, or with two if exactly two were written.
-/

namespace StackAssembler

/-- A path in normal form. -/
structure Path where
  /-- The slashes that the path starts with. -/
  root : String
  /-- The components. -/
  parts : List (List Char)
  deriving DecidableEq, Repr

namespace Path

/-- A text cut at every slash. -/
def cut : List Char → List (List Char)
  | [] => [[]]
  | c :: rest =>
    if c = '/' then [] :: cut rest
    else
      match cut rest with
      | [] => [[c]]
      | part :: parts => (c :: part) :: parts

/-- The path of a text. -/
def ofString (text : String) : Path :=
  let slashes := (text.toList.takeWhile (· == '/')).length
  let root := if slashes = 0 then "" else if slashes = 2 then "//" else "/"
  ⟨root, (cut text.toList).filter fun part => part ≠ [] ∧ part ≠ ['.']⟩

/-- The text of a path.  The path without components is a dot, or its root. -/
def text (path : Path) : String :=
  if path.root = "" ∧ path.parts = [] then "."
  else path.root ++ "/".intercalate (path.parts.map String.ofList)

/-- The path that stands for the standard output. -/
def dash : Path := ⟨"", [['-']]⟩

/-- A name less its suffix.  The suffix starts at the last dot, and there is none if that is the
first or the last character. -/
def stem (name : List Char) : List Char :=
  let suffix := (name.reverse.takeWhile (· != '.')).length
  if suffix = 0 ∨ name.length ≤ suffix + 1 then name
  else name.take (name.length - (suffix + 1))

/-- The path with another suffix; a path without a name cannot have one. -/
def withSuffix (path : Path) (suffix : String) : Except Failure Path :=
  match path.parts.getLast? with
  | none => .error (.internal (.namelessPath path.text))
  | some name => .ok ⟨path.root, path.parts.dropLast ++ [stem name ++ suffix.toList]⟩

/-- The path to which a program is written if none is given: that of the program, with the suffix of
the format. -/
def defaultOutput (input : Path) (format : String) : Except Failure Path :=
  input.withSuffix (if format = Format.binary.name then ".bin" else ".txt")

end Path

end StackAssembler

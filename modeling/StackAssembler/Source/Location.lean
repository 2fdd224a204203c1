/-!
# Places in a program

A place is counted in characters, and both lines and columns start from one.  A newline begins a
line; every other character takes one column.  A location that is stated by a caller, and not found
by reading a text, may have any integers for its line and its column.
-/

namespace StackAssembler

/-- A line and a column. -/
structure Position where
  line : Nat
  column : Nat
  deriving DecidableEq, Repr

namespace Position

/-- Where a text begins. -/
def first : Position := ⟨1, 1⟩

/-- The place after a character of the same line. -/
def nextColumn (p : Position) : Position := ⟨p.line, p.column + 1⟩

/-- The place after a newline. -/
def nextLine (p : Position) : Position := ⟨p.line + 1, 1⟩

end Position

/-- A place in a named text. -/
structure Location where
  file : String
  line : Int
  column : Int
  deriving DecidableEq, Repr

namespace Location

/-- A position in a file. -/
def ofPosition (file : String) (p : Position) : Location := ⟨file, p.line, p.column⟩

/-- A location in a message. -/
def text (l : Location) : String :=
  String.join [l.file, ":", toString l.line, ":", toString l.column]

end Location

end StackAssembler

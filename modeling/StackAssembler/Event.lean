import StackAssembler.LabelTable

/-!
# Events

What the assembler tells about its work while it is at it.
-/

namespace StackAssembler

/-- Something worth a line in the log. -/
inductive Event
  /-- A program defines a label. -/
  | labelDefined (name : LabelName) (index : Int)
  /-- The assembler turns to a file. -/
  | fileOpened (path : String)
  /-- A program has been assembled. -/
  | assembled (file : String) (words labels : Nat)
  /-- A binary image has been written. -/
  | imageWritten (bytes : Nat) (path : String)
  /-- A listing has been written. -/
  | listingWritten (style : String) (bytes : Nat) (path : String)
  /-- A label table has been written. -/
  | symbolsWritten (labels : Nat) (path : String)
  /-- A run of the command ends with this many labels. -/
  | labelsDefined (count : Nat)
  deriving DecidableEq, Repr

/-- The line of an event. -/
def Event.message : Event → String
  | labelDefined name index =>
    String.join ["Label '", String.ofList name, "' = ", toString index]
  | fileOpened path => String.join ["Compiling ", path, "..."]
  | assembled file words labels =>
    String.join ["Compiled ", file, ": ", toString words, " words, ", toString labels, " labels"]
  | imageWritten bytes path => String.join ["Wrote ", toString bytes, " bytes to ", path]
  | listingWritten style bytes path =>
    String.join ["Wrote ", style, " listing (", toString bytes, " bytes) to ", path]
  | symbolsWritten labels path => String.join ["Wrote ", toString labels, " symbols to ", path]
  | labelsDefined count => String.join ["Defined ", toString count, " labels"]

end StackAssembler

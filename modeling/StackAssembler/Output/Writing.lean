import StackAssembler.Encoding.Utf8
import StackAssembler.Event
import StackAssembler.Files.Tree
import StackAssembler.Output.Listing
import StackAssembler.Output.Symbols

/-!
# Writing files

The output is composed before the file is touched, so a number that is not a word, or a name that
has no meaning, leaves the files as they are.
-/

namespace StackAssembler

/-- A file that has been written. -/
structure Written where
  /-- The files afterwards. -/
  tree : Tree
  /-- How many bytes were written. -/
  bytes : Nat
  /-- What there is to tell. -/
  event : Event

namespace Tree

/-- Writes data to a path, which is put into normal form first. -/
def put (tree : Tree) (path : String) (data : List UInt8) : Except Failure Tree :=
  tree.write (Path.ofString path).text data

/-- Writes the image of words. -/
def writeImage (tree : Tree) (path order : String) (words : List Int) : Except Failure Written := do
  let data ← Image.ofWordsNamed order words
  let tree ← tree.put path data
  return ⟨tree, data.length, .imageWritten data.length path⟩

/-- Writes a listing of words. -/
def writeListing (tree : Tree) (path : String) (style : String) (words : List Int) :
    Except Failure Written := do
  let text ← Listing.ofWordsNamed style words
  let data := Encoding.Utf8.encode text
  let tree ← tree.put path data
  return ⟨tree, data.length, .listingWritten style data.length path⟩

/-- Writes the symbol list of a label table. -/
def writeSymbols (tree : Tree) (path : String) (labels : LabelTable) : Except Failure Written := do
  let data := Encoding.Utf8.encode (Symbols.ofTable labels)
  let tree ← tree.put path data
  return ⟨tree, data.length, .symbolsWritten labels.size path⟩

end Tree

end StackAssembler

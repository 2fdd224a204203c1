import StackAssembler.Assembler
import StackAssembler.Files.Tree

/-!
# Assembling files

A file is assembled under its path in normal form, by which messages call it.  If the file cannot be
read, the assembler stays as it was.
-/

namespace StackAssembler.Assembler

/-- Assembles the file at a path. -/
def assembleFile (assembler : Assembler) (tree : Tree) (path : String) : Assembly :=
  let file := (Path.ofString path).text
  match tree.read file with
  | .error failure => ⟨.error failure, assembler, [.fileOpened file], 0⟩
  | .ok bytes =>
    let assembly := assembler.assembleBytes bytes file
    { assembly with events := .fileOpened file :: assembly.events }

end StackAssembler.Assembler

import StackAssembler.Command.Run

/-!
# The command

The files that a run may look at are taken into a file tree, `Command.run` says what comes of them,
and what it has changed is written back.
-/

namespace StackAssembler.Command

/-- The path of a place. -/
def pathOf (place : Place) : String := "/" ++ "/".intercalate (place.map String.ofList)

/-- What there is at a place of the machine's files.  A directory shows itself by the error of
reading it. -/
def observe (place : Place) : IO (Option Node) := do
  try
    let data ← IO.FS.readBinFile (pathOf place)
    return some (.file data.toList)
  catch
    | .inappropriateType _ 21 _ => return some .directory
    | _ => return none

/-- The file tree in which some paths can be followed as on the machine. -/
def survey (here : Place) (paths : List String) : IO Tree := do
  let mut tree := Tree.empty here
  for place in paths.flatMap (Tree.stopsOf here) do
    if let some node ← observe place then
      tree := tree.set place node
  return tree

/-- Writes the files that differ between two trees. -/
def writeBack (earlier later : Tree) : IO Unit := do
  for (place, node) in later.nodes do
    if let .file data := node then
      if earlier.get? place != some node then
        IO.FS.writeBinFile (pathOf place) (ByteArray.mk data.toArray)

/-- The variables that settings are taken from. -/
def environment : IO Environment := do
  return {
    encoding := ← IO.getEnv "SMASM_ENCODING"
    format := ← IO.getEnv "SMASM_FORMAT"
    byteOrder := ← IO.getEnv "SMASM_BYTEORDER"
    logLevel := ← IO.getEnv "SMASM_LOG_LEVEL" }

end StackAssembler.Command

open StackAssembler StackAssembler.Command in
/-- Assembles a program, as the command line says. -/
def main (arguments : List String) : IO UInt32 := do
  let here := (Path.ofString ((← IO.getEnv "PWD").getD "/")).parts
  let tree ← survey here (pathsOf arguments)
  let outcome := run arguments (← environment) tree
  (← IO.getStdout).write (ByteArray.mk outcome.stdout.toArray)
  IO.eprint outcome.stderr
  try
    writeBack tree outcome.tree
    return UInt32.ofNat outcome.exit.number
  catch error =>
    let failure := Failure.file (.stated error.toString)
    IO.eprintln (report failure)
    return UInt32.ofNat (exitCode failure).number

import StackAssembler.Text.Quoted

/-!
# Errors of file access

Why a file could not be read or written: usually a number, a reason and the path, of which some may
be missing.
-/

namespace StackAssembler

/-- A failed access to a file. -/
inductive FileError
  /-- Nothing is known. -/
  | unexplained
  /-- Only a text is known. -/
  | stated (text : String)
  /-- The number and the reason, and perhaps the path. -/
  | numbered (number : Int) (reason : String) (path : Option String)
  deriving DecidableEq, Repr

namespace FileError

/-- There is nothing at the path. -/
def notFound (path : String) : FileError := numbered 2 "No such file or directory" (some path)

/-- The path goes through something that is not a directory. -/
def notDirectory (path : String) : FileError := numbered 20 "Not a directory" (some path)

/-- The path leads to a directory. -/
def isDirectory (path : String) : FileError := numbered 21 "Is a directory" (some path)

/-- The path, or a name in it, is longer than a file system takes. -/
def nameTooLong (path : String) : FileError := numbered 36 "File name too long" (some path)

/-- The full message. -/
def message : FileError → String
  | unexplained => ""
  | stated text => text
  | numbered number reason none => String.join ["[Errno ", toString number, "] ", reason]
  | numbered number reason (some path) =>
    String.join ["[Errno ", toString number, "] ", reason, ": ", Text.quoted path]

/-- The reason alone; the full message, if the reason is empty. -/
def reason : FileError → String
  | numbered number reason path =>
    if reason = "" then (numbered number reason path).message else reason
  | error => error.message

/-- The path that could not be accessed. -/
def path? : FileError → Option String
  | numbered _ _ path => path
  | _ => none

/-- The error as a user is told about it, without its number. -/
def describe (error : FileError) : String :=
  match error.path? with
  | none => String.join ["I/O error: ", error.reason]
  | some path => String.join ["cannot access '", path, "': ", error.reason]

end FileError

end StackAssembler

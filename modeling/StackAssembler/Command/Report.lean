import StackAssembler.Command.Help
import StackAssembler.Failure

/-!
# Reports

How a run that fails is reported: the exit code, and a message.  A diagnostic is shown as it is; all
other failures are introduced by the name of the command.
-/

namespace StackAssembler.Command

/-- How a run ends. -/
inductive ExitCode
  /-- The program was assembled and written. -/
  | success
  /-- The program is wrong. -/
  | compileError
  /-- The run was given up before it began. -/
  | givenUp
  /-- The command line or a setting is wrong. -/
  | usageError
  /-- A file could not be read or written. -/
  | ioError
  /-- Anything else. -/
  | internalError
  deriving DecidableEq, Repr

/-- The number of an exit code.  The number alone does not tell a run that was given up from one
with a wrong program. -/
def ExitCode.number : ExitCode → Nat
  | success => 0
  | compileError => 1
  | givenUp => 1
  | usageError => 2
  | ioError => 3
  | internalError => 4

/-- The exit code of a failure. -/
def exitCode : Failure → ExitCode
  | .program _ => .compileError
  | .setting _ => .usageError
  | .file _ => .ioError
  | .internal _ => .internalError

/-- The message about a failure. -/
def report : Failure → String
  | .program diagnostic => diagnostic.message
  | .setting fault => String.join [name, ": configuration error: ", fault.message]
  | .file error => String.join [name, ": ", error.describe]
  | .internal defect => String.join [name, ": internal error: ", defect.inspect]

/-- The heading under which a detailed report of an internal error begins. -/
def traceHeading : String := "Traceback (most recent call last):"

end StackAssembler.Command

import StackAssembler.Command.Arguments
import StackAssembler.Files.Tree
import StackAssembler.Text.Case

/-!
# What a command line asks for

A command line asks for the version, for help, or for a program to be assembled.  The values of the
options are checked in the order in which the options are first used, then the input file, and last
that there are no more arguments.  Of several uses of an option, the last counts.

A path with a NUL character in it cannot be looked up.  It counts neither as one at which there is
nothing nor as a wrong value: the check that meets it is given up, and the run with it.
-/

namespace StackAssembler.Command

/-- The request to assemble a program. -/
structure Invocation where
  input : String
  output : Option String
  format : Option String
  byteOrder : Option String
  symbols : Option String
  encoding : Option String
  defines : List String
  verbose : Bool
  deriving DecidableEq, Repr

/-- What a command line asks for. -/
inductive Request
  | version
  | help
  | assemble (invocation : Invocation)
  deriving DecidableEq, Repr

/-- Why a command line is not carried out. -/
inductive Refusal
  /-- It is wrong. -/
  | usage (error : UsageError)
  /-- It holds a path that cannot be looked up. -/
  | unusablePath
  deriving DecidableEq, Repr

namespace Invocation

/-- The choice that a value names, ignoring case. -/
def choice? (choices : List String) (value : String) : Option String :=
  choices.find? fun choice => choice.toList == Text.lower value.toList

/-- The formats to choose from. -/
def formats : List String := Format.all.map Format.name

/-- The byte orders to choose from. -/
def byteOrders : List String := ByteOrder.all.map ByteOrder.name

/-- Checks that a value is one of some choices. -/
def checkChoice (opt : Opt) (choices : List String) (value : String) : Except Refusal Unit :=
  if (choice? choices value).isSome then .ok ()
  else .error (.usage (.notAChoice opt value choices))

/-- What a path leads to; nothing, if it cannot be followed to its end. -/
def lookUp (tree : Tree) (path : String) : Except Refusal (Option Node) :=
  match tree.status path with
  | .ok node => .ok (some node)
  | .error (.internal .nulInPath) => .error .unusablePath
  | .error _ => .ok none

/-- Checks that a path does not lead to a directory. -/
def checkOutput (tree : Tree) (opt : Opt) (path : String) : Except Refusal Unit := do
  match ← lookUp tree path with
  | some .directory => .error (.usage (.outputIsDirectory opt path))
  | _ => return ()

/-- Checks the value of an option. -/
def checkValue (tree : Tree) (opt : Opt) (value : String) : Except Refusal Unit :=
  match opt with
  | .output => if value = "-" then .ok () else checkOutput tree opt value
  | .symbols => checkOutput tree opt value
  | .format => checkChoice opt formats value
  | .byteOrder => checkChoice opt byteOrders value
  | _ => .ok ()

/-- Checks that a path leads to a file. -/
def checkInput (tree : Tree) (path : String) : Except Refusal Unit := do
  match ← lookUp tree path with
  | some (.file _) => return ()
  | some .directory => .error (.usage (.inputIsDirectory path))
  | none => .error (.usage (.inputNotFound path))

/-- The invocation of a command line with some input. -/
def ofLine (line : Line) (input : String) : Invocation where
  input := input
  output := line.value? .output
  format := (line.value? .format).bind (choice? formats)
  byteOrder := (line.value? .byteOrder).bind (choice? byteOrders)
  symbols := line.value? .symbols
  encoding := line.value? .encoding
  defines := line.values .define
  verbose := (line.value? .verbose).isSome

/-- Checks everything about a command line, and gives the invocation. -/
def check (tree : Tree) (line : Line) : Except Refusal Invocation := do
  line.opts.forM fun opt => checkValue tree opt ((line.value? opt).getD "")
  match line.arguments with
  | [] => .error (.usage .argumentMissing)
  | input :: extra =>
    checkInput tree input
    if extra ≠ [] then .error (.usage (.argumentsUnexpected extra))
    else return ofLine line input

end Invocation

/-- What a command line asks for.  The first request for the version or for help wins over all
else. -/
def Request.ofArguments (tree : Tree) (arguments : List String) : Except Refusal Request := do
  let line ← (Line.read arguments).mapError .usage
  match line.opts.find? Opt.isEager with
  | some .version => return .version
  | some _ => return .help
  | none => return .assemble (← Invocation.check tree line)

end StackAssembler.Command

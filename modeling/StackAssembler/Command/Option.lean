import StackAssembler.Output.Format
import StackAssembler.Text.Likeness
import StackAssembler.Text.Quoted

/-!
# Options of the command

The options of the command line, their names, and what can be wrong with the way in which the
command is called.
-/

namespace StackAssembler.Command

/-- An option of the command. -/
inductive Opt
  | output
  | format
  | byteOrder
  | symbols
  | encoding
  | define
  | verbose
  | version
  | help
  deriving DecidableEq, Repr

namespace Opt

/-- All options. -/
def all : List Opt :=
  [output, format, byteOrder, symbols, encoding, define, verbose, version, help]

/-- The long name of an option. -/
def long : Opt → String
  | output => "--output"
  | format => "--format"
  | byteOrder => "--byteorder"
  | symbols => "--symbols"
  | encoding => "--encoding"
  | define => "--define"
  | verbose => "--verbose"
  | version => "--version"
  | help => "--help"

/-- The letter of an option that has one. -/
def letter? : Opt → Option Char
  | output => some 'o'
  | format => some 'f'
  | symbols => some 's'
  | encoding => some 'e'
  | define => some 'D'
  | verbose => some 'v'
  | byteOrder | version | help => none

/-- Whether an option is followed by a value. -/
def takesValue : Opt → Bool
  | verbose | version | help => false
  | _ => true

/-- Whether an option ends the run before anything else is looked at. -/
def isEager : Opt → Bool
  | version | help => true
  | _ => false

/-- The option of a long name. -/
def ofLong? (name : String) : Option Opt := all.find? fun opt => opt.long == name

/-- The option of a letter. -/
def ofLetter? (c : Char) : Option Opt := all.find? fun opt => opt.letter? == some c

/-- The short name of an option with this letter. -/
def shortName (c : Char) : String := String.ofList ['-', c]

/-- The long names of the options that may have been meant by a name. -/
def guesses (name : String) : List String := Text.guesses (all.map long) name

/-- The names of an option in a message. -/
def label (opt : Opt) : String :=
  match opt.letter? with
  | none => String.join ["'", opt.long, "'"]
  | some c => String.join ["'", shortName c, "' / '", opt.long, "'"]

end Opt

/-- What is wrong with a command line. -/
inductive UsageError
  /-- There is no option of a name; perhaps one of some others was meant. -/
  | noSuchOption (name : String) (guesses : List String)
  | valueMissing (name : String)
  | valueUnexpected (name : String)
  | argumentMissing
  | argumentsUnexpected (arguments : List String)
  | inputNotFound (path : String)
  | inputIsDirectory (path : String)
  | outputIsDirectory (opt : Opt) (path : String)
  | notAChoice (opt : Opt) (value : String) (choices : List String)
  | badDefine (text : String)
  deriving DecidableEq, Repr

namespace UsageError

/-- The name of the argument in a message. -/
def inputLabel : String := "'INPUT_FILE'"

/-- The message about a value. -/
def invalid (label : String) (parts : List String) : String :=
  String.join ("Invalid value for " :: label :: ": " :: parts)

/-- The question whether one of some names was meant. -/
def suggestion : List String → String
  | [] => ""
  | [name] => String.join [" Did you mean ", Text.quoted name, "?"]
  | names =>
    String.join [" (Did you mean one of: ", ", ".intercalate (names.map Text.quoted), "?)"]

/-- The message about a command line. -/
def message : UsageError → String
  | noSuchOption name guesses =>
    String.join ["No such option ", Text.quoted name, ".", suggestion guesses]
  | valueMissing name => String.join ["Option ", Text.quoted name, " requires an argument."]
  | valueUnexpected name => String.join ["Option ", Text.quoted name, " does not take a value."]
  | argumentMissing => "Missing argument 'INPUT_FILE'."
  | argumentsUnexpected arguments =>
    String.join ["Got unexpected extra argument", if arguments.length = 1 then "" else "s", " (",
      " ".intercalate arguments, ")"]
  | inputNotFound path => invalid inputLabel ["File ", Text.quoted path, " does not exist."]
  | inputIsDirectory path => invalid inputLabel ["File ", Text.quoted path, " is a directory."]
  | outputIsDirectory opt path =>
    invalid opt.label ["File ", Text.quoted path, " is a directory."]
  | notAChoice opt value choices =>
    invalid opt.label
      [Text.quoted value, " is not one of ", ", ".intercalate (choices.map Text.quoted), "."]
  | badDefine text => invalid "'-D'" ["invalid value in -D ", text]

/-- Whether the message comes with a reminder of how the command is called.  It does not if an
option and its value do not go together. -/
def hasReminder : UsageError → Bool
  | valueMissing _ | valueUnexpected _ => false
  | _ => true

end UsageError

end StackAssembler.Command

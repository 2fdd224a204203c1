import StackAssembler.Encoding.Name
import StackAssembler.Failure
import StackAssembler.Text.Case

/-!
# Settings

The settings of a run: the encoding of programs, the format and byte order of the output, and the
level from which on events are logged.  They have defaults, which variables of the environment
replace if their values have a meaning.
-/

namespace StackAssembler

/-- The levels of events, from the least severe on. -/
inductive LogLevel
  | debug
  | info
  | warning
  | error
  | critical
  deriving DecidableEq, Repr

namespace LogLevel

/-- The name of a level in settings. -/
def name : LogLevel → String
  | debug => "DEBUG"
  | info => "INFO"
  | warning => "WARNING"
  | error => "ERROR"
  | critical => "CRITICAL"

/-- The number of a level; more severe levels have larger numbers. -/
def number : LogLevel → Nat
  | debug => 10
  | info => 20
  | warning => 30
  | error => 40
  | critical => 50

/-- All levels. -/
def all : List LogLevel := [debug, info, warning, error, critical]

/-- The level of a name; the spelling must be exact. -/
def ofName? (name : String) : Option LogLevel := all.find? fun level => level.name == name

/-- Names that have a number although settings do not accept them. -/
def otherNames : List (String × Nat) := [("WARN", 30), ("FATAL", 50), ("NOTSET", 0)]

/-- The number of a name. -/
def numberOfName? (name : String) : Option Nat :=
  ((ofName? name).map number).or (otherNames.lookup name)

end LogLevel

/-- The variables of the environment that settings are taken from. -/
structure Environment where
  encoding : Option String
  format : Option String
  byteOrder : Option String
  logLevel : Option String
  deriving DecidableEq, Repr

/-- The settings of a run, by name; `Settings.validate` tells whether the names have a meaning. -/
structure Settings where
  encoding : String := "utf-8"
  format : String := Format.binary.name
  byteOrder : String := ByteOrder.little.name
  logLevel : String := LogLevel.warning.name
  deriving DecidableEq, Repr

namespace Settings

/-- The value of a variable in one case, if it is a name that has a meaning. -/
def chosen (recase : List Char → List Char) (isName : String → Bool) (value : Option String) :
    Option String :=
  (value.map fun v => String.ofList (recase v.toList)).filter isName

/-- The settings of an environment.  Variables that are missing or have no meaning are ignored. -/
def ofEnvironment (env : Environment) : Settings :=
  let default : Settings := {}
  { encoding := (env.encoding.filter Encoding.isKnown).getD default.encoding
    format := (chosen Text.lower (Format.ofName? · |>.isSome) env.format).getD default.format
    byteOrder :=
      (chosen Text.lower (ByteOrder.ofName? · |>.isSome) env.byteOrder).getD default.byteOrder
    logLevel :=
      (chosen Text.upper (LogLevel.ofName? · |>.isSome) env.logLevel).getD default.logLevel }

/-- Checks the settings one after the other. -/
def validate (settings : Settings) : Except Failure Unit :=
  if !Encoding.isName settings.encoding then .error (.internal .nulInName)
  else if !Encoding.isKnown settings.encoding then
    .error (.setting (.unknownEncoding settings.encoding))
  else if (Format.ofName? settings.format).isNone then
    .error (.setting (.unknownFormat settings.format))
  else if (ByteOrder.ofName? settings.byteOrder).isNone then
    .error (.setting (.unknownByteOrder settings.byteOrder))
  else if (LogLevel.ofName? settings.logLevel).isNone then
    .error (.setting (.unknownLogLevel settings.logLevel))
  else .ok ()

/-- The number of the log level. -/
def level (settings : Settings) : Except Defect Nat :=
  match LogLevel.numberOfName? settings.logLevel with
  | some number => .ok number
  | none => .error (.unknownLogLevel settings.logLevel)

end Settings

end StackAssembler

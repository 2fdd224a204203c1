import StackAssembler.Diagnostic
import StackAssembler.Files.FileError
import StackAssembler.Output.Format

/-!
# Failures

Everything that can end a run.  A failure belongs to the program (`Diagnostic`), to the settings, to
the files, or to none of these; the last are the defects, which a user is told about as internal
errors.
-/

namespace StackAssembler

/-- A setting that has no meaning. -/
inductive SettingFault
  | unknownEncoding (name : String)
  | unknownFormat (name : String)
  | unknownByteOrder (name : String)
  | unknownLogLevel (name : String)
  /-- In words of the caller's own. -/
  | stated (message : String)
  deriving DecidableEq, Repr

/-- The names that a setting may have. -/
def SettingFault.expected (names : List String) : String :=
  String.join ["(expected one of: ", ", ".intercalate names, ")"]

/-- The message about a setting. -/
def SettingFault.message : SettingFault → String
  | unknownEncoding name => String.join ["unknown encoding '", name, "'"]
  | unknownFormat name =>
    String.join ["unknown output format '", name, "' ", expected (Format.all.map Format.name)]
  | unknownByteOrder name =>
    String.join ["unknown byte order '", name, "' ", expected (ByteOrder.all.map ByteOrder.name)]
  | unknownLogLevel name => String.join ["unknown log level '", name, "'"]
  | stated message => message

/-- A value that a defect carries. -/
inductive Detail
  | text (value : String)
  | number (value : Int)
  deriving DecidableEq, Repr

namespace Detail

/-- A value as it is written among others: text between quotes. -/
def shown : Detail → String
  | text value => Text.quoted value
  | number value => String.ofList (Text.signedDecimal value)

/-- A value that stands alone. -/
def plain : Detail → String
  | text value => value
  | number value => String.ofList (Text.signedDecimal value)

end Detail

/-- A failure that neither the program nor the settings nor the files account for. -/
inductive Defect
  /-- An encoding that cannot be read. -/
  | unknownEncoding (name : String)
  /-- A name of an encoding with a NUL character in it. -/
  | nulInName
  /-- A path with a NUL character in it. -/
  | nulInPath
  /-- A text in UTF-16 or UTF-32 without its byte order mark. -/
  | missingMark (bits : Nat)
  /-- A text that has no form in its encoding. -/
  | unwritable (text : Encoding.Unwritable)
  /-- A literal of more digits than are read. -/
  | tooManyDigits (count : Nat)
  /-- A kind of word that there is not. -/
  | unknownKind (name : String)
  /-- An integer that is not a word. -/
  | notAWord (value : Int)
  /-- A byte order that there is not. -/
  | unknownByteOrder (name : String)
  /-- A style of listing that there is not. -/
  | unknownStyle (name : String)
  /-- A log level that there is not. -/
  | unknownLogLevel (name : String)
  /-- A path whose last component is missing, where its name is needed. -/
  | namelessPath (path : String)
  /-- A failure of another's making: its name, and the values it carries. -/
  | foreign (name : String) (details : List Detail)
  deriving DecidableEq, Repr

namespace Defect

/-- What kind of failure a defect is. -/
def name : Defect → String
  | unknownEncoding _ => "LookupError"
  | missingMark _ => "UnicodeError"
  | unwritable _ => "UnicodeEncodeError"
  | unknownLogLevel _ => "AttributeError"
  | foreign name _ => name
  | _ => "ValueError"

/-- Values in parentheses. -/
def tuple (details : List Detail) : String :=
  String.join ["(", ", ".intercalate (details.map Detail.shown), ")"]

/-- The message of a defect. -/
def message : Defect → String
  | unknownEncoding name => String.join ["unknown encoding: ", name]
  | nulInName => "embedded null character"
  | nulInPath => "embedded null byte"
  | missingMark bits => String.join ["UTF-", toString bits, " stream does not start with BOM"]
  | unwritable text => text.message
  | tooManyDigits count =>
    String.join ["Exceeds the limit (", toString Text.digitLimit, " digits) for integer string ",
      "conversion: value has ", toString count, " digits; use sys.set_int_max_str_digits() to ",
      "increase the limit"]
  | unknownKind name => String.join ["unknown token kind ", Text.quoted name]
  | notAWord value => String.join ["word ", toString value, " does not fit in 32 bits"]
  | unknownByteOrder name => String.join ["unknown byte order '", name, "'"]
  | unknownStyle name => String.join ["unknown text style '", name, "'"]
  | unknownLogLevel name => String.join ["module 'logging' has no attribute '", name, "'"]
  | namelessPath path => String.join ["PosixPath(", Text.quoted path, ") has an empty name"]
  | foreign _ [] => ""
  | foreign _ [detail] => detail.plain
  | foreign _ details => tuple details

/-- The values that a defect carries. -/
def details : Defect → List Detail
  | unwritable u =>
    [.text u.charset.label, .text (String.ofList u.text), .number u.start,
      .number (u.start + u.count : Nat), .text u.charset.reason]
  | foreign _ details => details
  | defect => [.text defect.message]

/-- A defect with its kind and the values it carries, as an internal error shows it. -/
def inspect (defect : Defect) : String := defect.name ++ tuple defect.details

end Defect

/-- A failure that ends a run. -/
inductive Failure
  | program (diagnostic : Diagnostic)
  | setting (fault : SettingFault)
  | file (error : FileError)
  | internal (defect : Defect)
  deriving DecidableEq, Repr

namespace Failure

/-- The message of a failure. -/
def message : Failure → String
  | program diagnostic => diagnostic.message
  | setting fault => fault.message
  | file error => error.message
  | internal defect => defect.message

/-- Gives a failure to read its place in the text; see `Diagnostic.locate`. -/
def locate (failure : Failure) (location : Location) : Failure :=
  match failure with
  | program diagnostic => program (diagnostic.locate location)
  | failure => failure

end Failure

end StackAssembler

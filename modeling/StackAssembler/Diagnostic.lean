import StackAssembler.Encoding.Fault
import StackAssembler.Machine.Word
import StackAssembler.Source.Location

/-!
# Diagnostics

What is wrong with a program.  A diagnostic has a cause, from which its description and its hint are
worded, and the place that it is about, if that is known.
-/

namespace StackAssembler

/-- What is wrong with an integer literal. -/
inductive LiteralFlaw
  | empty
  | notDecimal
  | outOfRange
  /-- In words of the caller's own. -/
  | stated (reason : String)
  deriving DecidableEq, Repr

/-- The words for the flaw of a literal. -/
def LiteralFlaw.reason : LiteralFlaw → String
  | empty => "empty literal"
  | notDecimal => "not a decimal number"
  | outOfRange =>
    String.join ["value out of range (", toString Word.minLiteral, " to ",
      toString Word.maxLiteral, ")"]
  | stated reason => reason

/-- The cause of a diagnostic. -/
inductive Cause
  /-- The bytes from some offset on are not text in the encoding. -/
  | malformed (encoding : String) (offset : Nat) (flaw : Encoding.Flaw)
  /-- The bytes spell a code point that is not a character. -/
  | surrogate (codePoint offset : Nat)
  /-- A word of no known shape. -/
  | unrecognized (word : List Char)
  /-- Text that could not be read, in words of the caller's own. -/
  | unreadable (message : String) (word : Option (List Char)) (hint : Option String)
  /-- An instruction that the machine does not have. -/
  | unknownMnemonic (mnemonic : List Char)
  /-- A literal that is no signed word. -/
  | badLiteral (literal : List Char) (flaw : LiteralFlaw)
  /-- A label that is defined again. -/
  | duplicateLabel (label : List Char) (first : Option Location)
  /-- A label that has not been defined, and labels that look like it. -/
  | undefinedLabel (label : List Char) (similar : List (List Char))
  /-- Anything else, in words of the caller's own. -/
  | stated (message : String) (hint : Option String)
  deriving DecidableEq, Repr

namespace Cause

/-- The first labels of a list, for a suggestion. -/
def suggestions (labels : List (List Char)) : String :=
  ", ".intercalate ((labels.take 3).map fun label => String.join ["'", String.ofList label, "'"])

/-- The description of what is wrong. -/
def description : Cause → String
  | malformed encoding _ _ =>
    String.join ["could not read code point: invalid ", encoding, " sequence"]
  | surrogate _ _ => "could not read code point: not a Unicode scalar value"
  | unrecognized word => String.join ["unrecognized token shape: ", Text.quotedWord word]
  | unreadable message none _ => message
  | unreadable message (some word) _ => String.join [message, ": ", Text.quotedWord word]
  | unknownMnemonic mnemonic =>
    String.join ["unknown instruction mnemonic '", String.ofList mnemonic, "'"]
  | badLiteral literal flaw =>
    String.join ["could not parse integer ", Text.quotedWord literal, ": ", flaw.reason]
  | duplicateLabel label _ => String.join ["duplicate label '", String.ofList label, "'"]
  | undefinedLabel label _ => String.join ["undefined label '", String.ofList label, "'"]
  | stated message _ => message

/-- What may help to mend it. -/
def hint : Cause → Option String
  | malformed _ offset flaw =>
    some (String.join ["at byte offset ", toString offset, ": ", flaw.reason])
  | surrogate codePoint offset =>
    some (String.join ["U+", String.ofList (Text.hexUpper 4 codePoint), " at byte offset ",
      toString offset])
  | unrecognized _ =>
    some (String.join ["expected a decimal integer, an instruction, 'name:' or '&name' ",
      "(label names use a-z and _)"])
  | unreadable _ _ hint => hint
  | unknownMnemonic _ => none
  | badLiteral [] _ => some "tokens are separated by exactly one space or newline"
  | badLiteral _ _ => none
  | duplicateLabel _ none => none
  | duplicateLabel label (some first) =>
    some (String.join ["'", String.ofList label, "' was first defined at ", first.text])
  | undefinedLabel _ [] => none
  | undefinedLabel _ similar => some (String.join ["did you mean ", suggestions similar, "?"])
  | stated _ hint => hint

/-- A failure to turn the input into words of known shapes. -/
def isReading : Cause → Bool
  | malformed .. | surrogate .. | unrecognized .. | unreadable .. => true
  | _ => false

/-- The word that a failure to read is about. -/
def word? : Cause → Option (List Char)
  | unrecognized word => some word
  | unreadable _ word _ => word
  | _ => none

/-- The same description and hint, without the word itself. -/
def withoutWord (cause : Cause) : Cause :=
  match cause.word? with
  | none => cause
  | some _ => unreadable cause.description none cause.hint

end Cause

/-- What is wrong with a program, and where. -/
structure Diagnostic where
  cause : Cause
  location : Option Location
  deriving DecidableEq, Repr

namespace Diagnostic

/-- The first line of the message. -/
def headline (d : Diagnostic) : String :=
  match d.location with
  | some location => String.join [location.text, ": error: ", d.cause.description]
  | none => String.join ["error: ", d.cause.description]

/-- The whole message.  An empty hint is not shown. -/
def message (d : Diagnostic) : String :=
  match d.cause.hint with
  | none => d.headline
  | some hint => if hint = "" then d.headline else String.join [d.headline, "\nhint: ", hint]

/-- A failure to read that has no place yet is given one; the place is then all that is kept besides
the words of the message. -/
def locate (d : Diagnostic) (location : Location) : Diagnostic :=
  if d.cause.isReading && d.location.isNone then ⟨d.cause.withoutWord, some location⟩ else d

end Diagnostic

end StackAssembler

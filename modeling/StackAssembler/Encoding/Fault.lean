import StackAssembler.Text.Quoted

/-!
# Encoding faults

What can be wrong with bytes that are read in some encoding, and with a text that is to be written
in one.  The wording of a message is derived from the fault.
-/

namespace StackAssembler.Encoding

/-- A way in which bytes fail to be text. -/
inductive Flaw
  /-- No character starts with this byte. -/
  | invalidStart
  /-- The byte cannot go on the character that has begun. -/
  | invalidContinuation
  /-- The input ends inside a character. -/
  | unexpectedEnd
  /-- The input ends inside a code unit. -/
  | truncatedUnit
  /-- A low surrogate without a high one before it. -/
  | loneLowSurrogate
  /-- A high surrogate without a low one after it. -/
  | loneHighSurrogate
  /-- A code unit that is a surrogate where there are no pairs. -/
  | surrogateUnit
  /-- A code unit above the last code point. -/
  | unitTooLarge
  /-- A byte outside ASCII. -/
  | notAscii
  /-- A byte that stands for no character. -/
  | unassigned
  /-- An escape of four digits that is not complete. -/
  | shortEscape
  /-- An escape of eight digits that is not complete. -/
  | longEscape
  /-- An escape of a number above the last code point. -/
  | escapeTooLarge
  deriving DecidableEq, Repr

/-- The words for a flaw in a message. -/
def Flaw.reason : Flaw → String
  | invalidStart => "invalid start byte"
  | invalidContinuation => "invalid continuation byte"
  | unexpectedEnd => "unexpected end of data"
  | truncatedUnit => "truncated data"
  | loneLowSurrogate => "illegal encoding"
  | loneHighSurrogate => "illegal UTF-16 surrogate"
  | surrogateUnit => "code point in surrogate code point range(0xd800, 0xe000)"
  | unitTooLarge => "code point not in range(0x110000)"
  | notAscii => "ordinal not in range(128)"
  | unassigned => "character maps to <undefined>"
  | shortEscape => "truncated \\uXXXX escape"
  | longEscape => "truncated \\UXXXXXXXX escape"
  | escapeTooLarge => "\\Uxxxxxxxx out of range"

/-- Why a decoder stops. -/
inductive Fault
  /-- The bytes are not text. -/
  | malformed (flaw : Flaw)
  /-- The byte order mark that the encoding demands is missing; its code units have `bits` bits. -/
  | missingMark (bits : Nat)
  deriving DecidableEq, Repr

/-- A character set of at most 256 characters, in which a text may have no form. -/
inductive Charset
  | ascii
  | latin1
  | cp1252
  deriving DecidableEq, Repr

/-- The name of a character set in a message about a text that it cannot write. -/
def Charset.label : Charset → String
  | ascii => "ascii"
  | latin1 => "latin-1"
  | cp1252 => "charmap"

/-- The words for what a character set cannot write. -/
def Charset.reason : Charset → String
  | ascii => "ordinal not in range(128)"
  | latin1 => "ordinal not in range(256)"
  | cp1252 => "character maps to <undefined>"

/-- A text that has no form in a character set: the characters from position `start` on, `count` of
them, are the first ones that cannot be written. -/
structure Unwritable where
  charset : Charset
  text : List Char
  start : Nat
  count : Nat
  deriving DecidableEq, Repr

/-- The message about a text that cannot be written.  A single character is shown by its number. -/
def Unwritable.message (u : Unwritable) : String :=
  let what :=
    if u.count = 1 then
      let code := ((u.text.drop u.start).take 1).flatMap fun c => Text.escapedCode c.toNat
      String.join ["character '", String.ofList code, "' in position ", toString u.start]
    else
      String.join ["characters in position ", toString u.start, "-",
        toString (u.start + u.count - 1)]
  String.join ["'", u.charset.label, "' codec can't encode ", what, ": ", u.charset.reason]

end StackAssembler.Encoding

import StackAssembler.Text.Numeral
import StackAssembler.Text.Printable

/-!
# Quoted text

Text between quotes, as messages show a piece of a program.  The quote is `'`, or `"` if the text
holds `'` and no `"`.  A backslash stands before the quote in use and before a backslash; tab,
newline and carriage return have names; any other character that is not printable is written by its
code point in two, four or eight hexadecimal digits, whichever is the least that suffices.
-/

namespace StackAssembler.Text

/-- The quote for a text. -/
def quoteFor (text : List Char) : Char :=
  if '\'' ∈ text ∧ '"' ∉ text then '"' else '\''

/-- A code point by its number, after a letter that tells the number of digits. -/
def escapedCode (n : Nat) : List Char :=
  if n < 0x100 then '\\' :: 'x' :: hex 2 n
  else if n < 0x10000 then '\\' :: 'u' :: hex 4 n
  else '\\' :: 'U' :: hex 8 n

/-- A character as it is written between quotes. -/
def quotedChar (quote c : Char) : List Char :=
  if c = quote ∨ c = '\\' then ['\\', c]
  else if c = '\t' then ['\\', 't']
  else if c = '\n' then ['\\', 'n']
  else if c = '\r' then ['\\', 'r']
  else if isPrintable c then [c]
  else escapedCode c.toNat

/-- A text between quotes. -/
def quotedChars (text : List Char) : List Char :=
  let quote := quoteFor text
  quote :: text.flatMap (quotedChar quote) ++ [quote]

/-- A word between quotes, for messages. -/
def quotedWord (word : List Char) : String := String.ofList (quotedChars word)

/-- A text between quotes, for messages. -/
def quoted (text : String) : String := quotedWord text.toList

end StackAssembler.Text

import StackAssembler.Output.Image

/-!
# Listings

A listing has one line for each word: its decimal numeral, or `0x` and eight hexadecimal digits.
-/

namespace StackAssembler

namespace Listing

/-- The numeral of a word. -/
def numeral : Style → Nat → List Char
  | .text, n => Text.decimal n
  | .hex, n => '0' :: 'x' :: Text.hexUpper 8 n

/-- The line of a word. -/
def line (style : Style) (n : Nat) : List Char := numeral style n ++ ['\n']

/-- The listing of words.  The first number that is not a word is reported. -/
def ofWords (style : Style) (words : List Int) : Except Failure (List Char) := do
  let numbers ← words.mapM Word.check
  return numbers.flatMap (line style)

/-- The listing of words in the style of a name. -/
def ofWordsNamed (style : String) (words : List Int) : Except Failure (List Char) :=
  match Style.ofName? style with
  | some style => ofWords style words
  | none => .error (.internal (.unknownStyle style))

end Listing

end StackAssembler

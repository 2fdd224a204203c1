import StackAssembler.Source.CodePoints

/-!
# Words of a program

A program is a sequence of words, each ended by a space or a newline, but for the last, which the
end of the input ends.  So two of these characters in a row enclose an empty word, and there is
always one word more than there are such characters.  Every other character, a tab or a carriage
return included, belongs to a word.
-/

namespace StackAssembler

/-- A word, and the place of its first character. -/
structure Token where
  text : List Char
  location : Location
  deriving DecidableEq, Repr

namespace Token

/-- A token as it is shown when it is inspected. -/
def inspect (token : Token) : String :=
  String.join ["Token(", Text.quotedWord token.text, ", ", toString token.location.line, ":",
    toString token.location.column, ")"]

/-- Cuts pieces of text into words.  A piece is usually one character; one that is not exactly a
space or a newline belongs to a word as a whole, and takes one column.  `start` is where the current
word starts, `here` the place reached, and `word` holds the characters between them, last first. -/
def cut (file : String) (start here : Position) (word : List Char) :
    Reading (List Char) → Reading Token
  | .done k => .next ⟨word.reverse, .ofPosition file start⟩ k (.done k)
  | .stopped failure k => .stopped (failure.locate (.ofPosition file here)) k
  | .next piece k rest =>
    if piece = [' '] then
      .next ⟨word.reverse, .ofPosition file start⟩ k
        (cut file here.nextColumn here.nextColumn [] rest)
    else if piece = ['\n'] then
      .next ⟨word.reverse, .ofPosition file start⟩ k
        (cut file here.nextLine here.nextLine [] rest)
    else cut file start here.nextColumn (piece.reverse ++ word) rest

/-- The words of pieces of text. -/
def ofPieces (file : String) (pieces : Reading (List Char)) : Reading Token :=
  cut file .first .first [] pieces

/-- The words of characters. -/
def ofCharacters (file : String) (characters : Reading Char) : Reading Token :=
  ofPieces file (characters.map ([·]))

end Token

/-- The words of a program's bytes. -/
def Source.tokens (file encoding : String) (bytes : List UInt8) : Reading Token :=
  Token.ofCharacters file (Source.characters encoding bytes)

end StackAssembler

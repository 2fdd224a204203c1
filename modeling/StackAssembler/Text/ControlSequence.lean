/-!
# Terminal control sequences

A control sequence tells a terminal what to do and is not shown.  It starts with an escape character
and an opening bracket; then come parameters, intermediate characters and one final character, each
from a range of ASCII of its own.  What is not completed by a final character is ordinary text.
-/

namespace StackAssembler.Text

/-- The character that starts a control sequence. -/
def escape : Char := '\x1b'

/-- A parameter of a control sequence: a digit, or a character beside the digits in ASCII. -/
def isParameter (c : Char) : Bool := '0' ≤ c && c ≤ '?'

/-- An intermediate character of a control sequence: a blank or one of the first punctuation
marks. -/
def isIntermediate (c : Char) : Bool := ' ' ≤ c && c ≤ '/'

/-- A character that ends a control sequence: a letter, or a character beside the letters. -/
def isFinal (c : Char) : Bool := '@' ≤ c && c ≤ '~'

/-- The length of what is left of a control sequence behind its opening bracket, if it is
completed. -/
def controlBodyLength? (text : List Char) : Option Nat :=
  let parameters := text.takeWhile isParameter
  let rest := text.drop parameters.length
  let intermediates := rest.takeWhile isIntermediate
  match rest.drop intermediates.length with
  | c :: _ => if isFinal c then some (parameters.length + intermediates.length + 1) else none
  | [] => none

/-- The length of the control sequence that starts with a character, less that character; none if
no control sequence starts with it. -/
def controlLength? (c : Char) (rest : List Char) : Option Nat :=
  match rest with
  | '[' :: body => if c = escape then (controlBodyLength? body).map (· + 1) else none
  | _ => none

/-- A text without its control sequences, and without its first `skip` characters. -/
def plainAfter : Nat → List Char → List Char
  | _, [] => []
  | skip + 1, _ :: rest => plainAfter skip rest
  | 0, c :: rest =>
    match controlLength? c rest with
    | some length => plainAfter length rest
    | none => c :: plainAfter 0 rest

/-- A text without its control sequences. -/
def plain (text : String) : String := String.ofList (plainAfter 0 text.toList)

end StackAssembler.Text

import StackAssembler.Failure

/-!
# Binary images

A program in binary is nothing but its words, each in four bytes of the byte order chosen.
-/

namespace StackAssembler

namespace Word

/-- A word as a natural number.  A number that does not fit is a defect. -/
def check (word : Int) : Except Failure Nat :=
  if Fits word then .ok word.toNat else .error (.internal (.notAWord word))

end Word

namespace Image

/-- The image of words.  The first number that is not a word is reported. -/
def ofWords (order : ByteOrder) (words : List Int) : Except Failure (List UInt8) := do
  let numbers ← words.mapM Word.check
  return numbers.flatMap (order.bytes Word.width)

/-- The image of words in the byte order of a name. -/
def ofWordsNamed (order : String) (words : List Int) : Except Failure (List UInt8) :=
  match ByteOrder.ofName? order with
  | some order => ofWords order words
  | none => .error (.internal (.unknownByteOrder order))

end Image

end StackAssembler

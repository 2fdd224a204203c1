import StackAssembler.Machine.ByteOrder

/-!
# Machine words

A word of the machine is an integer from `0` to `2 ^ 32 - 1`.  The assembler computes with
integers, so that a value that does not fit can be noticed and reported; `Word.Fits` says when one
does, and `Word.wrap` makes any integer fit.
-/

namespace StackAssembler

namespace Word

/-- The width of a word in bits. -/
def bits : Nat := 32

/-- The width of a word in bytes. -/
def width : Nat := 4

/-- The largest word; also the mask that keeps the bits of a word. -/
def max : Int := 4294967295

/-- The largest literal: literals are signed words. -/
def maxLiteral : Int := 2147483647

/-- The least signed word. -/
def minLiteral : Int := -2147483648

/-- A number that is a word of the machine. -/
def Fits (n : Int) : Prop := 0 ≤ n ∧ n ≤ max

instance (n : Int) : Decidable (Fits n) := inferInstanceAs (Decidable (_ ∧ _))

/-- The word with the same lowest bits, also for a negative number. -/
def wrap (n : Int) : Int := n % 4294967296

theorem fits_wrap (n : Int) : Fits (wrap n) := by
  unfold Fits wrap max
  omega

theorem wrap_of_fits {n : Int} (h : Fits n) : wrap n = n := by
  unfold Fits max at h
  unfold wrap
  omega

end Word

end StackAssembler

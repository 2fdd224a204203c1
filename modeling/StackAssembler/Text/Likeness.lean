/-!
# Likeness of words

How alike two words are, for guessing what was meant by a misspelt one.  The longest stretch that
two words have in common is taken out of both, and so on with what is left of it and right of it;
the likeness is the share that all these stretches have in the two words together.
-/

namespace StackAssembler.Text

/-- A stretch that two words have in common: where it starts in each, and how long it is. -/
structure Stretch where
  left : Nat
  right : Nat
  size : Nat
  deriving DecidableEq, Repr

/-- How many characters two words have in common at their beginnings. -/
def commonLength : List Char → List Char → Nat
  | c :: a, d :: b => if c = d then commonLength a b + 1 else 0
  | _, _ => 0

/-- The stretches that start at each pair of places, in order of the places. -/
def stretches (a b : List Char) : List Stretch :=
  (List.range a.length).flatMap fun i =>
    (List.range b.length).map fun j => ⟨i, j, commonLength (a.drop i) (b.drop j)⟩

/-- The longest stretch; of several, the first. -/
def longestStretch (a b : List Char) : Stretch :=
  (stretches a b).foldl (fun best next => if best.size < next.size then next else best)
    ⟨0, 0, 0⟩

/-- How many characters all stretches have together, of which at most `fuel` are taken out one
inside the other.  Every stretch shortens the words, so the length of one of them is enough. -/
def sharedLengthWithin : Nat → List Char → List Char → Nat
  | 0, _, _ => 0
  | fuel + 1, a, b =>
    let stretch := longestStretch a b
    if stretch.size = 0 then 0
    else
      sharedLengthWithin fuel (a.take stretch.left) (b.take stretch.right) + stretch.size +
        sharedLengthWithin fuel (a.drop (stretch.left + stretch.size))
          (b.drop (stretch.right + stretch.size))

/-- How many characters all stretches have together. -/
def sharedLength (a b : List Char) : Nat := sharedLengthWithin a.length a b

/-- Whether two words of these lengths are alike if they share so many characters: twice the shared
characters must be three fifths of all. -/
def isLikeness (a b shared : Nat) : Bool := 3 * (a + b) ≤ 10 * shared

/-- Whether two words are alike.  Words whose lengths are too different cannot be, and are not
searched for stretches. -/
def isAlike (a b : List Char) : Bool :=
  isLikeness a.length b.length (min a.length b.length) &&
    isLikeness a.length b.length (sharedLength a b)

/-- How many words are suggested at most. -/
def likenessLimit : Nat := 3

/-- Whether a word is a better guess than another, or as good: the one that is more like what was
written, and of two equally like it, the one that is later in order. -/
def isBetterGuess (written : List Char) (a b : String) : Bool :=
  let shareA := sharedLength a.toList written * (b.length + written.length)
  let shareB := sharedLength b.toList written * (a.length + written.length)
  shareB < shareA || (shareA == shareB && b ≤ a)

/-- The best guesses at what was meant by a word, in order. -/
def guesses (words : List String) (written : String) : List String :=
  let alike := words.filter fun word => isAlike word.toList written.toList
  let best := (alike.mergeSort (isBetterGuess written.toList)).take likenessLimit
  best.mergeSort fun a b => a ≤ b

end StackAssembler.Text

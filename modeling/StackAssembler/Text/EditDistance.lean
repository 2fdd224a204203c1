/-!
# Edit distance

The least number of insertions, deletions and substitutions of single characters that turn one
word into another.  The computation keeps one row of the table of distances: the entry at `j` after
`i` characters is the distance between the first `i` characters of one word and the first `j`
characters of the other.
-/

namespace StackAssembler.Text

/-- The entries of the next row, after its first.  `left` is the entry just computed; the previous
row is given from the entry above `left` on. -/
def extendRow (c : Char) (left : Nat) : List Char → List Nat → List Nat
  | d :: word, diagonal :: above :: row =>
    let entry := if c = d then diagonal else 1 + min (min diagonal above) left
    entry :: extendRow c entry word (above :: row)
  | _, _ => []

/-- The row after one more character; its first entry counts the characters so far. -/
def nextRow (word : List Char) (row : List Nat) (c : Char) : List Nat :=
  let first := row.headD 0 + 1
  first :: extendRow c first word row

/-- The last entry of the row after all characters of `long`. -/
def rowDistance (long short : List Char) : Nat :=
  (long.foldl (nextRow short) (List.range (short.length + 1))).getLastD 0

/-- The edit distance of two words.  The row belongs to the shorter word. -/
def editDistance (a b : List Char) : Nat :=
  if a.length < b.length then rowDistance b a else rowDistance a b

end StackAssembler.Text

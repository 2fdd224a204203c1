import StackAssembler.LabelTable
import StackAssembler.Text.Numeral

/-!
# Symbol lists

A symbol list has one line for each label, with the label, an equals sign and the address.  The
lines are ordered by address, and by label where addresses are equal; labels are filled up with
spaces to the same width.
-/

namespace StackAssembler

namespace Symbols

/-- The alphabetical order of labels, by code points. -/
def nameLe : LabelName → LabelName → Bool
  | [], _ => true
  | _ :: _, [] => false
  | a :: s, b :: t => if a = b then nameLe s t else a.toNat < b.toNat

/-- The order of lines. -/
def entryLe (a b : LabelName × Int) : Bool :=
  a.2 < b.2 || (a.2 == b.2 && nameLe a.1 b.1)

/-- The width of the longest label. -/
def width (entries : List (LabelName × Int)) : Nat :=
  entries.foldl (fun width entry => max width entry.1.length) 0

/-- The line of a label. -/
def line (width : Nat) (entry : LabelName × Int) : List Char :=
  entry.1.rightpad width ' ' ++ [' ', '=', ' '] ++ Text.signedDecimal entry.2 ++ ['\n']

/-- The symbol list of a table. -/
def ofTable (table : LabelTable) : List Char :=
  (table.entries.mergeSort entryLe).flatMap (line (width table.entries))

end Symbols

end StackAssembler

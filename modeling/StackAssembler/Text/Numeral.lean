import StackAssembler.Text.Blank
import StackAssembler.Text.DecimalDigit

/-!
# Numerals

How numbers are written and read.  Numbers are written in plain decimal, or in hexadecimal digits
filled up with zeros to a width.  An integer is read from a text that may have blanks around it, one
sign, digits of any script, and single underscores between the digits; in base sixteen the text may
begin with `0x`.  A decimal text of more than `digitLimit` digits is refused.
-/

namespace StackAssembler.Text

/-- A natural number in decimal. -/
def decimal (n : Nat) : List Char := Nat.toDigits 10 n

/-- An integer in decimal, with a minus sign if it is negative. -/
def signedDecimal : Int → List Char
  | .ofNat n => decimal n
  | .negSucc n => '-' :: decimal (n + 1)

/-- A number in lower case hexadecimal digits, with zeros in front up to a width. -/
def hex (width n : Nat) : List Char := (Nat.toDigits 16 n).leftpad width '0'

/-- A number in upper case hexadecimal digits, with zeros in front up to a width. -/
def hexUpper (width n : Nat) : List Char := (hex width n).map Char.toUpper

/-- The most digits that a decimal text may have. -/
def digitLimit : Nat := 4300

/-- The bases in which integers are read. -/
inductive Base
  | ten
  | sixteen
  deriving DecidableEq, Repr

namespace Base

/-- How many digits the base has. -/
def radix : Base → Nat
  | ten => 10
  | sixteen => 16

/-- The value of a digit of the base. -/
def digit? (base : Base) (c : Char) : Option Nat :=
  let n := c.toNat
  if 0x30 ≤ n ∧ n ≤ 0x39 then some (n - 0x30)
  else match base with
    | ten => none
    | sixteen =>
      if 0x61 ≤ n ∧ n ≤ 0x66 then some (n - 0x57)
      else if 0x41 ≤ n ∧ n ≤ 0x46 then some (n - 0x37)
      else none

/-- The number that digits denote, most significant first. -/
def value (base : Base) (digits : List Nat) : Nat :=
  digits.foldl (fun n d => n * base.radix + d) 0

/-- The digits that follow a digit: each may have one underscore before it. -/
def moreDigits? (base : Base) : List Char → Option (List Nat)
  | [] => some []
  | '_' :: c :: rest => do
    let d ← base.digit? c
    let ds ← base.moreDigits? rest
    return d :: ds
  | c :: rest => do
    let d ← base.digit? c
    let ds ← base.moreDigits? rest
    return d :: ds

/-- One or more digits with single underscores between them. -/
def digits? (base : Base) : List Char → Option (List Nat)
  | [] => none
  | c :: rest => do
    let d ← base.digit? c
    let ds ← base.moreDigits? rest
    return d :: ds

/-- Takes away the mark `0x` of base sixteen, and one underscore right after it. -/
def skipMark : Base → List Char → List Char
  | sixteen, '0' :: 'x' :: '_' :: rest => rest
  | sixteen, '0' :: 'X' :: '_' :: rest => rest
  | sixteen, '0' :: 'x' :: rest => rest
  | sixteen, '0' :: 'X' :: rest => rest
  | _, text => text

/-- The number without sign that a text denotes. -/
def natural? (base : Base) (text : List Char) : Option Nat := do
  let digits ← base.digits? (base.skipMark text)
  if base = ten ∧ digitLimit < digits.length then none
  else return base.value digits

end Base

/-- The ASCII form of a character of a number: a digit of any script becomes the ASCII digit and a
blank outside ASCII the space.  Other characters outside ASCII have none. -/
def asciiForm? (c : Char) : Option Char :=
  if c.toNat < 0x7f then some c
  else if isBlank c then some ' '
  else (digitValue? c).map fun d => Char.ofNat (0x30 + d)

/-- The blanks that may stand around a number once it is in ASCII form. -/
def isPadding (c : Char) : Bool :=
  c == ' ' || (0x09 ≤ c.toNat && c.toNat ≤ 0x0d)

/-- The integer that a text denotes. -/
def integer? (base : Base) (text : List Char) : Option Int := do
  let ascii ← text.mapM asciiForm?
  match trimEnd isPadding (ascii.dropWhile isPadding) with
  | '-' :: rest => return -((← base.natural? rest : Nat) : Int)
  | '+' :: rest => return ((← base.natural? rest : Nat) : Int)
  | rest => return ((← base.natural? rest : Nat) : Int)

end StackAssembler.Text

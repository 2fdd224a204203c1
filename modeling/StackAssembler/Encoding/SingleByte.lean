import StackAssembler.Encoding.Decoder

/-!
# One byte for each character

The character sets in which every byte is a character by itself: ASCII, Latin-1, and code page
1252, which puts other characters into the range of the control codes from `0x80` to `0x9f` and
leaves five bytes without a meaning.
-/

namespace StackAssembler.Encoding

/-- The code points of the bytes `0x80` to `0x9f` in code page 1252, with `0` for no character. -/
def cp1252Upper : List Nat :=
  [0x20ac, 0, 0x201a, 0x0192, 0x201e, 0x2026, 0x2020, 0x2021,
    0x02c6, 0x2030, 0x0160, 0x2039, 0x0152, 0, 0x017d, 0,
    0, 0x2018, 0x2019, 0x201c, 0x201d, 0x2022, 0x2013, 0x2014,
    0x02dc, 0x2122, 0x0161, 0x203a, 0x0153, 0, 0x017e, 0x0178]

namespace Charset

/-- The code point of a byte. -/
def codePoint? (charset : Charset) (byte : UInt8) : Option Nat :=
  let n := byte.toNat
  match charset with
  | ascii => if n < 0x80 then some n else none
  | latin1 => some n
  | cp1252 =>
    if 0x80 ≤ n ∧ n < 0xa0 then (cp1252Upper[n - 0x80]?).filter (· != 0) else some n

/-- The flaw of a byte that is no character of the set. -/
def flaw : Charset → Flaw
  | ascii => .notAscii
  | latin1 => .unassigned
  | cp1252 => .unassigned

/-- The character set as an encoding. -/
def form (charset : Charset) : Form where
  judge
    | [byte] =>
      match charset.codePoint? byte with
      | some n => .whole [n]
      | none => .bad charset.flaw
    | _ => .part
  finish _ := .ok []

/-- The byte of a character. -/
def byte? (charset : Charset) (c : Char) : Option UInt8 :=
  let n := c.toNat
  match charset with
  | ascii => if n < 0x80 then some (UInt8.ofNat n) else none
  | latin1 => if n < 0x100 then some (UInt8.ofNat n) else none
  | cp1252 =>
    if n < 0x80 ∨ 0xa0 ≤ n ∧ n < 0x100 then some (UInt8.ofNat n)
    else if n = 0 then none
    else (cp1252Upper.findIdx? (· == n)).map fun i => UInt8.ofNat (0x80 + i)

/-- The bytes of a text, or the first run of characters that cannot be written. -/
def encode (charset : Charset) (text : List Char) : Except Unwritable (List UInt8) :=
  match text.mapM charset.byte? with
  | some bytes => .ok bytes
  | none =>
    let good := text.takeWhile fun c => (charset.byte? c).isSome
    let bad := (text.drop good.length).takeWhile fun c => (charset.byte? c).isNone
    .error ⟨charset, text, good.length, bad.length⟩

end Charset

end StackAssembler.Encoding

import StackAssembler.Encoding.Decoder

/-!
# UTF-8

A character takes one to four bytes.  The first byte tells how many; a second byte is refused as
soon as it makes the character overlong or too large, but a surrogate only at its third byte.
-/

namespace StackAssembler.Encoding.Utf8

/-- A byte after the first of a character. -/
def isTail (byte : UInt8) : Bool := 0x80 ≤ byte && byte ≤ 0xbf

/-- The six low bits of a byte after the first. -/
def tailBits (byte : UInt8) : Nat := byte.toNat % 0x40

/-- A second byte that the first byte admits, as far as it is looked at before the third. -/
def admits (first second : UInt8) : Bool :=
  isTail second && !(first == 0xe0 && second < 0xa0) && !(first == 0xf0 && second < 0x90) &&
    !(first == 0xf4 && 0x90 ≤ second)

/-- The start of a surrogate. -/
def startsSurrogate (first second : UInt8) : Bool :=
  first == 0xed && 0xa0 ≤ second && second ≤ 0xbf

/-- The verdict on the bytes of one character. -/
def judge : List UInt8 → Verdict
  | [a] =>
    if a < 0x80 then .whole [a.toNat]
    else if 0xc2 ≤ a ∧ a ≤ 0xf4 then .part
    else .bad .invalidStart
  | [a, b] =>
    if !admits a b then .bad .invalidContinuation
    else if a < 0xe0 then .whole [a.toNat % 0x20 * 0x40 + tailBits b]
    else .part
  | [a, b, c] =>
    if startsSurrogate a b || !isTail c then .bad .invalidContinuation
    else if a < 0xf0 then .whole [(a.toNat % 0x10 * 0x40 + tailBits b) * 0x40 + tailBits c]
    else .part
  | [a, b, c, d] =>
    if !isTail d then .bad .invalidContinuation
    else .whole [((a.toNat % 0x08 * 0x40 + tailBits b) * 0x40 + tailBits c) * 0x40 + tailBits d]
  | _ => .bad .invalidStart

/-- The end of the input is welcome only between characters. -/
def finish : List UInt8 → Except Flaw (List Nat)
  | [] => .ok []
  | [a, b] => if startsSurrogate a b then .error .invalidContinuation else .error .unexpectedEnd
  | _ => .error .unexpectedEnd

/-- UTF-8 without a mark. -/
def form : Form := ⟨judge, finish⟩

/-- The bytes of a text. -/
def encode (text : List Char) : List UInt8 := text.flatMap String.utf8EncodeChar

end StackAssembler.Encoding.Utf8

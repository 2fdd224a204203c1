import StackAssembler.Encoding.Decoder
import StackAssembler.Machine.ByteOrder

/-!
# UTF-16 in a fixed byte order

A character takes one code unit of two bytes, or two of them: a high surrogate and a low one.
-/

namespace StackAssembler.Encoding.Utf16

/-- A code unit that begins a pair. -/
def isHigh (unit : Nat) : Bool := 0xd800 ≤ unit && unit < 0xdc00

/-- A code unit that completes a pair. -/
def isLow (unit : Nat) : Bool := 0xdc00 ≤ unit && unit < 0xe000

/-- The code point of a pair. -/
def pairValue (high low : Nat) : Nat := 0x10000 + (high % 0x400 * 0x400 + low % 0x400)

/-- The verdict on the bytes of one character. -/
def judge (order : ByteOrder) : List UInt8 → Verdict
  | [_] => .part
  | [a, b] =>
    let unit := order.value [a, b]
    if isLow unit then .bad .loneLowSurrogate
    else if isHigh unit then .part
    else .whole [unit]
  | [_, _, _] => .part
  | [a, b, c, d] =>
    let low := order.value [c, d]
    if isLow low then .whole [pairValue (order.value [a, b]) low]
    else .bad .loneHighSurrogate
  | _ => .bad .loneHighSurrogate

/-- The end of the input is welcome only between characters. -/
def finish : List UInt8 → Except Flaw (List Nat)
  | [] => .ok []
  | [_] => .error .truncatedUnit
  | _ => .error .unexpectedEnd

/-- UTF-16 without a mark. -/
def form (order : ByteOrder) : Form := ⟨judge order, finish⟩

/-- The bytes of a character. -/
def encodeChar (order : ByteOrder) (c : Char) : List UInt8 :=
  let n := c.toNat
  if n < 0x10000 then order.bytes 2 n
  else
    order.bytes 2 (0xd800 + (n - 0x10000) / 0x400) ++
      order.bytes 2 (0xdc00 + (n - 0x10000) % 0x400)

/-- The bytes of a text. -/
def encode (order : ByteOrder) (text : List Char) : List UInt8 := text.flatMap (encodeChar order)

end StackAssembler.Encoding.Utf16

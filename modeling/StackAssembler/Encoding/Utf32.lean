import StackAssembler.Encoding.Decoder
import StackAssembler.Machine.ByteOrder

/-!
# UTF-32 in a fixed byte order

Every character takes one code unit of four bytes, its code point.
-/

namespace StackAssembler.Encoding.Utf32

/-- The verdict on the bytes of one character. -/
def judge (order : ByteOrder) : List UInt8 → Verdict
  | [a, b, c, d] =>
    let unit := order.value [a, b, c, d]
    if 0xd800 ≤ unit ∧ unit < 0xe000 then .bad .surrogateUnit
    else if 0x110000 ≤ unit then .bad .unitTooLarge
    else .whole [unit]
  | _ => .part

/-- The end of the input is welcome only between characters. -/
def finish : List UInt8 → Except Flaw (List Nat)
  | [] => .ok []
  | _ => .error .truncatedUnit

/-- UTF-32 without a mark. -/
def form (order : ByteOrder) : Form := ⟨judge order, finish⟩

/-- The bytes of a text. -/
def encode (order : ByteOrder) (text : List Char) : List UInt8 :=
  text.flatMap fun c => order.bytes 4 c.toNat

end StackAssembler.Encoding.Utf32

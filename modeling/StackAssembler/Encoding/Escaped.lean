import StackAssembler.Encoding.Decoder

/-!
# Latin-1 with escapes

Characters up to `U+00FF` are bytes of their own; any character can be written as a backslash, the
letter `u` and four hexadecimal digits, or the letter `U` and eight.  A backslash before anything
else stands for itself, and so does the character after it, even if that is another backslash.  The
escapes admit surrogates, which are no characters; it is for the reader to refuse them.
-/

namespace StackAssembler.Encoding.Escaped

/-- The backslash. -/
def backslash : UInt8 := 0x5c

/-- The letter that announces four digits. -/
def shortMark : UInt8 := 0x75

/-- The letter that announces eight digits. -/
def longMark : UInt8 := 0x55

/-- The value of a hexadecimal digit. -/
def digit? (byte : UInt8) : Option Nat :=
  Text.Base.sixteen.digit? (Char.ofNat byte.toNat)

/-- The verdict on the digits of an escape that must have `count` of them. -/
def judgeDigits (count : Nat) (flaw : Flaw) (bytes : List UInt8) : Verdict :=
  match bytes.mapM digit? with
  | none => .bad flaw
  | some digits =>
    if digits.length < count then .part
    else if 0x110000 ≤ Text.Base.sixteen.value digits then .bad .escapeTooLarge
    else .whole [Text.Base.sixteen.value digits]

/-- The verdict on the bytes of one character, or of a backslash and the byte after it. -/
def judge : List UInt8 → Verdict
  | [a] => if a = backslash then .part else .whole [a.toNat]
  | [a, b] => if b = shortMark ∨ b = longMark then .part else .whole [a.toNat, b.toNat]
  | _ :: b :: digits =>
    if b = shortMark then judgeDigits 4 .shortEscape digits
    else judgeDigits 8 .longEscape digits
  | [] => .part

/-- A backslash at the end of the input stands for itself; an escape must be complete. -/
def finish : List UInt8 → Except Flaw (List Nat)
  | [] => .ok []
  | [a] => .ok [a.toNat]
  | _ :: b :: _ => if b = shortMark then .error .shortEscape else .error .longEscape

/-- Latin-1 with escapes. -/
def form : Form := ⟨judge, finish⟩

/-- The bytes of ASCII characters. -/
def asciiBytes (text : List Char) : List UInt8 := text.map fun c => UInt8.ofNat c.toNat

/-- The bytes of a character. -/
def encodeChar (c : Char) : List UInt8 :=
  let n := c.toNat
  if n < 0x100 then [UInt8.ofNat n]
  else if n < 0x10000 then backslash :: shortMark :: asciiBytes (Text.hex 4 n)
  else backslash :: longMark :: asciiBytes (Text.hex 8 n)

/-- The bytes of a text.  Backslashes are not escaped. -/
def encode (text : List Char) : List UInt8 := text.flatMap encodeChar

end StackAssembler.Encoding.Escaped

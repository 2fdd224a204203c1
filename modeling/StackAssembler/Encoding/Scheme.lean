import StackAssembler.Encoding.Escaped
import StackAssembler.Encoding.Mark
import StackAssembler.Encoding.SingleByte

/-!
# Encodings

The encodings in which a program can be read, each with its decoder and its encoder.
-/

namespace StackAssembler

/-- An encoding of text as bytes. -/
inductive Encoding
  | utf8
  | signedUtf8
  | utf16 (order : ByteOrder)
  | markedUtf16
  | utf32 (order : ByteOrder)
  | markedUtf32
  | charset (set : Encoding.Charset)
  | escaped
  deriving DecidableEq, Repr

namespace Encoding

/-- The machine that reads the encoding. -/
def decoder : Encoding → Decoder
  | utf8 => Utf8.form.decoder
  | signedUtf8 => signedUtf8Decoder
  | utf16 order => (Utf16.form order).decoder
  | markedUtf16 => markedUtf16Decoder
  | utf32 order => (Utf32.form order).decoder
  | markedUtf32 => markedUtf32Decoder
  | charset set => set.form.decoder
  | escaped => Escaped.form.decoder

/-- The bytes of a text.  A mark is little endian. -/
def encode : Encoding → List Char → Except Unwritable (List UInt8)
  | utf8, text => .ok (Utf8.encode text)
  | signedUtf8, text => .ok (signature ++ Utf8.encode text)
  | utf16 order, text => .ok (Utf16.encode order text)
  | markedUtf16, text => .ok (mark16 .little ++ Utf16.encode .little text)
  | utf32 order, text => .ok (Utf32.encode order text)
  | markedUtf32, text => .ok (mark32 .little ++ Utf32.encode .little text)
  | charset set, text => set.encode text
  | escaped, text => .ok (Escaped.encode text)

end Encoding

end StackAssembler

import StackAssembler.Encoding.Utf8
import StackAssembler.Encoding.Utf16
import StackAssembler.Encoding.Utf32

/-!
# Byte order marks

Encodings whose text may or must begin with the mark `U+FEFF`, which is not part of the text.  In
UTF-8 the mark is optional.  In UTF-16 and UTF-32 it is demanded of every text that is not empty,
and it tells the byte order of all that follows; until it is complete, bytes are judged as little
endian, so that a faulty code unit is reported as such and a sound one as a missing mark.
-/

namespace StackAssembler.Encoding

/-- The mark in UTF-8. -/
def signature : List UInt8 := [0xef, 0xbb, 0xbf]

/-- What a decoder remembers that looks for a mark. -/
inductive Phase (α : Type)
  /-- The mark may still come; these are the bytes so far. -/
  | opening (pending : List UInt8)
  /-- The text has begun, and these are the bytes of the character that has begun. -/
  | body (kind : α) (pending : List UInt8)

/-- UTF-8 with an optional mark.  An input that ends inside the mark is an empty text. -/
def signedUtf8Decoder : Decoder where
  State := Phase Unit
  start := .opening []
  step
    | .opening seen, byte =>
      let pending := seen ++ [byte]
      if pending = signature then .ok (.body () [], [])
      else if pending.isPrefixOf signature then .ok (.opening pending, [])
      else do
        let (rest, codePoints) ← Utf8.form.advance pending
        return (.body () rest, codePoints)
    | .body _ pending, byte => do
      let (rest, codePoints) ← Utf8.form.advance (pending ++ [byte])
      return (.body () rest, codePoints)
  finish
    | .opening _ => .ok []
    | .body _ pending => Utf8.form.close pending

/-- A form in either byte order, with a mark that tells which. -/
def markedUnits (bits : Nat) (mark : ByteOrder → List UInt8) (form : ByteOrder → Form) :
    Decoder where
  State := Phase ByteOrder
  start := .opening []
  step
    | .opening seen, byte =>
      let pending := seen ++ [byte]
      if pending = mark .little then .ok (.body .little [], [])
      else if pending = mark .big then .ok (.body .big [], [])
      else
        match (form .little).judge pending with
        | .whole _ => .error (.missingMark bits)
        | .part => .ok (.opening pending, [])
        | .bad flaw => .error (.malformed flaw)
    | .body order pending, byte => do
      let (rest, codePoints) ← (form order).advance (pending ++ [byte])
      return (.body order rest, codePoints)
  finish
    | .opening pending => (form .little).close pending
    | .body order pending => (form order).close pending

/-- The mark in code units of two bytes. -/
def mark16 (order : ByteOrder) : List UInt8 := order.bytes 2 0xfeff

/-- The mark in code units of four bytes. -/
def mark32 (order : ByteOrder) : List UInt8 := order.bytes 4 0xfeff

/-- UTF-16 with a mark. -/
def markedUtf16Decoder : Decoder := markedUnits 16 mark16 Utf16.form

/-- UTF-32 with a mark. -/
def markedUtf32Decoder : Decoder := markedUnits 32 mark32 Utf32.form

end StackAssembler.Encoding

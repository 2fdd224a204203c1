import StackAssembler.Encoding.Name
import StackAssembler.Source.Reading

/-!
# Reading characters

Bytes are decoded one at a time, and each character is handed out as soon as the byte that completes
it has been read.  A flaw is reported with the offset of the byte at which it showed, which is the
length of the input if it showed at the end.
-/

namespace StackAssembler

namespace Source

/-- What a fault of the decoder at an offset means for the run. -/
def decodingFailure (encoding : String) (offset : Nat) : Encoding.Fault → Failure
  | .malformed flaw => .program ⟨.malformed encoding offset flaw, none⟩
  | .missingMark bits => .internal (.missingMark bits)

/-- Hands out code points that were completed at an offset, when `bytesRead` bytes have been read.
A surrogate is no character, and stops the reading. -/
def deliver (offset bytesRead : Nat) (rest : Reading Char) : List Nat → Reading Char
  | [] => rest
  | n :: more =>
    if n.isValidChar then .next (Char.ofNat n) bytesRead (deliver offset bytesRead rest more)
    else .stopped (.program ⟨.surrogate n offset, none⟩) bytesRead

/-- Reads on from a state of the decoder, after `offset` bytes. -/
def readFrom (encoding : String) (decoder : Encoding.Decoder) (state : decoder.State)
    (offset : Nat) : List UInt8 → Reading Char
  | [] =>
    match decoder.finish state with
    | .ok codePoints => deliver offset offset (.done offset) codePoints
    | .error fault => .stopped (decodingFailure encoding offset fault) offset
  | byte :: bytes =>
    match decoder.step state byte with
    | .ok (state, codePoints) =>
      deliver offset (offset + 1) (readFrom encoding decoder state (offset + 1) bytes) codePoints
    | .error fault => .stopped (decodingFailure encoding offset fault) (offset + 1)

/-- The encoding of a name. -/
def scheme (encoding : String) : Except Failure Encoding :=
  match Encoding.ofName? encoding with
  | some scheme => .ok scheme
  | none =>
    .error (.internal (if Encoding.isName encoding then .unknownEncoding encoding else .nulInName))

/-- The characters of bytes in the encoding of a name.  Messages give the name as it was written. -/
def characters (encoding : String) (bytes : List UInt8) : Reading Char :=
  match scheme encoding with
  | .error failure => .stopped failure 0
  | .ok scheme => readFrom encoding scheme.decoder scheme.decoder.start 0 bytes

end Source

/-- A program as it is given to the assembler. -/
inductive Source
  /-- A text, which is first written in the encoding in force. -/
  | text (characters : List Char)
  /-- Bytes in the encoding in force. -/
  | bytes (data : List UInt8)
  deriving DecidableEq, Repr

/-- The bytes of a program in the encoding of a name. -/
def Source.toBytes (encoding : String) : Source → Except Failure (List UInt8)
  | .bytes data => .ok data
  | .text characters =>
    match Source.scheme encoding with
    | .error failure => .error failure
    | .ok scheme =>
      match scheme.encode characters with
      | .ok data => .ok data
      | .error unwritable => .error (.internal (.unwritable unwritable))

end StackAssembler

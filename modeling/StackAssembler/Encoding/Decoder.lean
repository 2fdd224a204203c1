import StackAssembler.Encoding.Fault

/-!
# Decoders

A decoder is fed one byte at a time and delivers the code points that each byte completes.  Most
encodings need to remember no more than the bytes of the character that has begun: such a *form* is
a judgement on those bytes, and `Form.decoder` turns it into a decoder.
-/

namespace StackAssembler.Encoding

/-- What the bytes of a character that has begun amount to. -/
inductive Verdict
  /-- They are complete, and stand for these code points. -/
  | whole (codePoints : List Nat)
  /-- More bytes must follow. -/
  | part
  /-- No bytes that follow can mend them. -/
  | bad (flaw : Flaw)
  deriving DecidableEq, Repr

/-- An encoding that is read character by character. -/
structure Form where
  /-- The verdict on the bytes since the last complete character, at least one. -/
  judge : List UInt8 → Verdict
  /-- What an input means that ends after these bytes of a character; there may be none. -/
  finish : List UInt8 → Except Flaw (List Nat)

/-- A machine that reads one byte at a time. -/
structure Decoder where
  /-- What the machine remembers. -/
  State : Type
  /-- The state before the first byte. -/
  start : State
  /-- Takes a byte, and gives the next state and the code points completed by the byte. -/
  step : State → UInt8 → Except Fault (State × List Nat)
  /-- Ends the input, and gives the code points completed by its end. -/
  finish : State → Except Fault (List Nat)

/-- The next unfinished bytes, and the code points completed, once a verdict is given on the bytes
so far. -/
def Form.advance (form : Form) (pending : List UInt8) : Except Fault (List UInt8 × List Nat) :=
  match form.judge pending with
  | .whole codePoints => .ok ([], codePoints)
  | .part => .ok (pending, [])
  | .bad flaw => .error (.malformed flaw)

/-- What the end of the input after unfinished bytes gives. -/
def Form.close (form : Form) (pending : List UInt8) : Except Fault (List Nat) :=
  match form.finish pending with
  | .ok codePoints => .ok codePoints
  | .error flaw => .error (.malformed flaw)

/-- The decoder of a form: it remembers the bytes of the character that has begun. -/
def Form.decoder (form : Form) : Decoder where
  State := List UInt8
  start := []
  step pending byte := form.advance (pending ++ [byte])
  finish := form.close

end StackAssembler.Encoding

import StackAssembler.Machine.ByteOrder
import Mathlib.Algebra.Group.Nat.Defs

/-!
# Bytes of numbers

A number that is written in bytes is read back from them, less what does not fit, and bytes that are
read as a number are written back from it.  This holds in either byte order, since putting bytes
into order is its own inverse.
-/

namespace StackAssembler.ByteOrder

/-- Of a number as many bytes are read back as were written. -/
theorem ofLowBytes_lowBytes (count n : Nat) :
    ofLowBytes (lowBytes count n) = n % 256 ^ count := by
  induction count generalizing n with
  | zero => simp [lowBytes, ofLowBytes, Nat.mod_one]
  | succ count ih =>
      have h : 256 ^ (count + 1) = 256 * 256 ^ count := Nat.pow_succ'
      rw [lowBytes, ofLowBytes, ih, h, Nat.mod_mul]
      simp

/-- Bytes are the lowest bytes of their number. -/
theorem lowBytes_ofLowBytes (bytes : List UInt8) :
    lowBytes bytes.length (ofLowBytes bytes) = bytes := by
  induction bytes with
  | nil => rfl
  | cons byte rest ih =>
      have hlt : byte.toNat < 256 := byte.toNat_lt
      have hdiv : (byte.toNat + 256 * ofLowBytes rest) / 256 = ofLowBytes rest := by omega
      have hbyte : UInt8.ofNat (byte.toNat + 256 * ofLowBytes rest) = byte := by
        apply UInt8.toNat_inj.1
        rw [UInt8.toNat_ofNat']
        omega
      simp only [List.length_cons, lowBytes, ofLowBytes, hdiv, hbyte, ih]

/-- Writing the number of bytes gives the bytes. -/
theorem bytes_value (order : ByteOrder) (data : List UInt8) :
    order.bytes data.length (order.value data) = data := by
  have h := lowBytes_ofLowBytes (order.arrange data)
  rw [length_arrange] at h
  rw [bytes, value, h, arrange_arrange]

/-- Reading bytes back gives the number, less what did not fit. -/
theorem value_bytes (order : ByteOrder) (count n : Nat) :
    order.value (order.bytes count n) = n % 256 ^ count := by
  rw [value, bytes, arrange_arrange, ofLowBytes_lowBytes]

end StackAssembler.ByteOrder

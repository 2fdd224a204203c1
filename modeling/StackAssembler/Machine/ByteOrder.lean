/-!
# Byte order

A number is cut into a fixed number of bytes, least significant byte first, and the order of the
machine then decides how the bytes are arranged.  Words of output, and the code units of the wider
encodings, are both written this way.
-/

namespace StackAssembler

/-- Which byte of a number comes first. -/
inductive ByteOrder
  | little
  | big
  deriving DecidableEq, Repr

namespace ByteOrder

/-- The name of a byte order in settings and options. -/
def name : ByteOrder → String
  | little => "little"
  | big => "big"

/-- Both byte orders, in the order in which messages list them. -/
def all : List ByteOrder := [little, big]

/-- The byte order of a name; the spelling must be exact. -/
def ofName? (name : String) : Option ByteOrder :=
  all.find? fun order => order.name == name

/-- Puts bytes that are listed least significant first into the order of the machine.  It is its own
inverse. -/
def arrange : ByteOrder → List UInt8 → List UInt8
  | little, bytes => bytes
  | big, bytes => bytes.reverse

/-- The lowest `count` bytes of a number, least significant first. -/
def lowBytes : Nat → Nat → List UInt8
  | 0, _ => []
  | count + 1, n => UInt8.ofNat n :: lowBytes count (n / 256)

/-- The number that bytes denote, least significant first. -/
def ofLowBytes : List UInt8 → Nat
  | [] => 0
  | byte :: rest => byte.toNat + 256 * ofLowBytes rest

/-- The `count` bytes of a number in this order; what does not fit is cut off. -/
def bytes (order : ByteOrder) (count n : Nat) : List UInt8 :=
  order.arrange (lowBytes count n)

/-- The number that bytes denote in this order. -/
def value (order : ByteOrder) (bytes : List UInt8) : Nat :=
  ofLowBytes (order.arrange bytes)

@[simp] theorem arrange_arrange (order : ByteOrder) (bytes : List UInt8) :
    order.arrange (order.arrange bytes) = bytes := by
  cases order <;> simp [arrange]

@[simp] theorem length_arrange (order : ByteOrder) (bytes : List UInt8) :
    (order.arrange bytes).length = bytes.length := by
  cases order <;> simp [arrange]

@[simp] theorem length_lowBytes (count n : Nat) : (lowBytes count n).length = count := by
  induction count generalizing n with
  | zero => rfl
  | succ count ih => simp [lowBytes, ih]

end ByteOrder

end StackAssembler

import StackAssembler.Text.Case

/-!
# Opcodes

The instruction set of the stack machine.  Every instruction occupies one word, its opcode;
operands are plain words that follow it.  A program writes an instruction by its mnemonic, in any
mixture of cases.
-/

namespace StackAssembler

/-- An instruction of the stack machine. -/
inductive Opcode
  | nop | add | sub | and | or | xor | not | input | output | load | store
  | jump | jumpZero | push | dup | swap | roll3 | outputNumber | jumpNonzero | drop | complement
  deriving DecidableEq, Repr

namespace Opcode

/-- The instruction set, in the order of the opcodes' numbers. -/
def all : List Opcode :=
  [nop, add, sub, and, or, xor, not, input, output, load, store,
    jump, jumpZero, push, dup, swap, roll3, outputNumber, jumpNonzero, drop, complement]

/-- The number of an opcode, which is the word that the machine executes. -/
def number : Opcode → Nat
  | nop => 0 | add => 1 | sub => 2 | and => 3 | or => 4 | xor => 5 | not => 6
  | input => 7 | output => 8 | load => 9 | store => 10 | jump => 11 | jumpZero => 12
  | push => 13 | dup => 14 | swap => 15 | roll3 => 16 | outputNumber => 17
  | jumpNonzero => 18 | drop => 19 | complement => 20

/-- The mnemonic of an opcode in lower case. -/
def name : Opcode → String
  | nop => "nop" | add => "add" | sub => "sub" | and => "and" | or => "or" | xor => "xor"
  | not => "not" | input => "in" | output => "out" | load => "load" | store => "stor"
  | jump => "jmp" | jumpZero => "jz" | push => "push" | dup => "dup" | swap => "swap"
  | roll3 => "rol3" | outputNumber => "outnum" | jumpNonzero => "jnz" | drop => "drop"
  | complement => "compl"

/-- The letters of the mnemonic. -/
def mnemonic (op : Opcode) : List Char := op.name.toList

/-- The instruction that a word names, ignoring case. -/
def ofMnemonic? (word : List Char) : Option Opcode :=
  all.find? fun op => op.mnemonic == Text.lower word

/-- The instruction with a number. -/
def ofNumber? (n : Int) : Option Opcode :=
  all.find? fun op => (op.number : Int) == n

theorem mem_all (op : Opcode) : op ∈ all := by
  cases op <;> decide

theorem number_lt (op : Opcode) : op.number < 21 := by
  cases op <;> decide

/-- The number of an opcode leads back to it. -/
@[simp] theorem ofNumber?_number (op : Opcode) : ofNumber? op.number = some op := by
  cases op <;> decide

/-- The mnemonic of an opcode leads back to it. -/
@[simp] theorem ofMnemonic?_mnemonic (op : Opcode) : ofMnemonic? op.mnemonic = some op := by
  cases op <;> decide

theorem mnemonic_of_ofMnemonic? {word : List Char} {op : Opcode}
    (h : ofMnemonic? word = some op) : op.mnemonic = Text.lower word := by
  simpa using List.find?_some h

end Opcode

end StackAssembler

import StackAssembler.Proofs.Program.Text
import Mathlib.Data.Nat.Digits.Defs

/-!
# Programs of one literal

A program that is nothing but digits is assembled into their number, if that is a signed word and if
there are no more of them than are read at once.  The number is that of decimal notation, so zeros
in front count for nothing but for the length of the text.
-/

namespace StackAssembler

/-- The number that digits denote in decimal notation: the last one counts ones. -/
def decimalValue (digits : List Char) : Nat :=
  Nat.ofDigits 10 (digits.reverse.map fun c => c.toNat - '0'.toNat)

theorem literalValue_eq_decimalValue (digits : List Char) :
    literalValue digits = decimalValue digits := by
  induction digits using List.reverseRecOn with
  | nil => rfl
  | append_singleton digits c ih =>
      rw [literalValue, Nat.ofDigitChars_append, ← literalValue, ih, decimalValue, decimalValue,
        List.reverse_concat, List.map_cons, Nat.ofDigits_cons, Nat.ofDigitChars_cons,
        Nat.ofDigitChars_nil, Nat.add_comm]

theorem decimalValue_zeros (count : Nat) : decimalValue (List.replicate count '0') = 0 := by
  rw [← literalValue_eq_decimalValue, literalValue, Nat.ofDigitChars_replicate_zero, Nat.mul_zero]

/-! ## Digits as a program -/

variable {digits : List Char}

theorem notMem_of_not_isDigit (hd : ∀ c ∈ digits, c.isDigit = true) {c : Char}
    (hc : c.isDigit = false) : c ∉ digits := by
  intro hm
  rw [hd c hm] at hc
  cases hc

/-- No digit ends a word. -/
theorem not_isBreak_of_isDigit (hd : ∀ c ∈ digits, c.isDigit = true) :
    ∀ c ∈ digits, isBreak c = false := by
  intro c hm
  by_contra hb
  simp only [isBreak, Bool.not_eq_false, Bool.or_eq_true, beq_iff_eq] at hb
  rcases hb with rfl | rfl
  · exact notMem_of_not_isDigit hd rfl hm
  · exact notMem_of_not_isDigit hd rfl hm

/-- Digits are a program in every encoding. -/
theorem Source.readsAs_digits {name : String} {encoding : Encoding}
    (hname : Encoding.ofName? name = some encoding) (hd : ∀ c ∈ digits, c.isDigit = true) :
    (Source.text digits).ReadsAs name digits := by
  have hascii : ∀ c ∈ digits, c.toNat < 0x80 := by
    intro c hc
    have hrange : '0'.toNat ≤ c.toNat ∧ c.toNat ≤ '9'.toNat := Char.isDigit_iff_toNat.1 (hd c hc)
    exact Nat.lt_of_le_of_lt hrange.2 (by decide)
  exact readsAs_ascii hname hascii (notMem_of_not_isDigit hd rfl)

/-- What a single word of digits comes to. -/
theorem Scope.run_digits (scope : Scope) {token : Token} (hne : token.text ≠ [])
    (hd : ∀ c ∈ token.text, c.isDigit = true) :
    (scope.run [token]).map Prod.fst =
      if 4300 < token.text.length then .error (.internal (.tooManyDigits token.text.length))
      else if decimalValue token.text ≤ 2 ^ 31 - 1 then .ok [(decimalValue token.text : Int)]
      else .error (.program ⟨.badLiteral token.text .outOfRange, some token.location⟩) := by
  rw [run, step_of_digits hne hd, literalValue_eq_decimalValue]
  split_ifs <;> rfl

namespace Assembler

/-- What a program of digits comes to is what its only word does. -/
theorem result_of_digits {assembler : Assembler} {source : Source}
    (h : source.ReadsAs assembler.encoding digits) (hne : digits ≠ [])
    (hd : ∀ c ∈ digits, c.isDigit = true) (name : Option String) :
    (assembler.assemble source name).result =
      if 4300 < digits.length then .error (.internal (.tooManyDigits digits.length))
      else if decimalValue digits ≤ 2 ^ 31 - 1 then .ok [(decimalValue digits : Int)]
      else .error (.program
        ⟨.badLiteral digits .outOfRange, some ⟨name.getD assembler.file, 1, 1⟩⟩) := by
  obtain ⟨bytes, hbytes, houtcome⟩ := outcome_of_readsAs h name
  rw [hbytes, result_assembleBytes, houtcome, tokensOf_unbroken _ (not_isBreak_of_isDigit hd),
    Scope.run_digits _ hne hd]
  rfl

/-- **A program of digits is assembled into their number**, or fails as a number that is no signed
word.  There is one other failure: more than 4300 digits are not read, be they zeros. -/
theorem assemble_digits (assembler : Assembler) (digits : List Char) (hne : digits ≠ [])
    (hd : ∀ c ∈ digits, c.isDigit = true) (name : Option String) :
    (∀ encoding, Encoding.ofName? assembler.encoding = some encoding →
      (Source.text digits).ReadsAs assembler.encoding digits) ∧
    ∀ source : Source, source.ReadsAs assembler.encoding digits →
      (assembler.assemble source name).result =
        if 4300 < digits.length then .error (.internal (.tooManyDigits digits.length))
        else if decimalValue digits ≤ 2 ^ 31 - 1 then .ok [(decimalValue digits : Int)]
        else .error (.program
          ⟨.badLiteral digits .outOfRange, some ⟨name.getD assembler.file, 1, 1⟩⟩) :=
  ⟨fun _ hname => Source.readsAs_digits hname hd, fun _ h => result_of_digits h hne hd name⟩

/-- The largest literal, with a zero in front, in UTF-16. -/
theorem assemble_digits_largest :
    let digits := ['0', '2', '1', '4', '7', '4', '8', '3', '6', '4', '7']
    ((new .empty "utf-16" "<input>").assemble (.text digits) none).result = .ok [2147483647] := by
  intro digits
  have hname : Encoding.ofName? "utf-16" = some .markedUtf16 := by decide +kernel
  obtain ⟨hreads, hresult⟩ := assemble_digits (new .empty "utf-16" "<input>") digits
    (List.cons_ne_nil _ _) (List.all_eq_true.1 rfl) none
  rw [hresult _ (hreads _ hname)]
  rfl

/-- Zeros denote zero, but too many of them are no literal. -/
theorem assemble_zeros_refused :
    let zeros := List.replicate 4301 '0'
    decimalValue zeros = 0 ∧
      ((new .empty "utf-8" "<input>").assemble (.text zeros) none).result =
        .error (.internal (.tooManyDigits 4301)) := by
  intro zeros
  have hd : ∀ c ∈ zeros, c.isDigit = true := fun c hc => List.eq_of_mem_replicate hc ▸ rfl
  have hlength : zeros.length = 4301 := List.length_replicate
  have hname : Encoding.ofName? "utf-8" = some .utf8 := by decide +kernel
  have hreads : (Source.text zeros).ReadsAs "utf-8" zeros := Source.readsAs_digits hname hd
  refine ⟨decimalValue_zeros 4301, ?_⟩
  rw [result_of_digits hreads (List.ne_nil_of_length_eq_add_one hlength) hd, hlength,
    if_pos (by decide)]

end Assembler

end StackAssembler

import StackAssembler.Proofs.Program.Range
import StackAssembler.Proofs.Program.Refusal
import StackAssembler.Proofs.Source.Bytes

/-!
# Internal errors of programs

Almost everything that is wrong with a program is reported as such.  Only a number of more digits
than are read at once is not, and the only words that cannot be put out are the numbers of words
that come too late.  So it takes a very long word or a very long program to come to an internal
error.

## Main definitions

* `IsOverlong`: a number that has too many digits.
-/

namespace StackAssembler

open Encoding

/-- The bytes are those of a number of more digits than are read. -/
structure IsOverlong (word : List UInt8) : Prop where
  isDigit : ∀ byte ∈ word, 0x30 ≤ byte.toNat ∧ byte.toNat ≤ 0x39
  lt_length : 4300 < word.length

theorem isOverlong_encode {text : List Char} (hd : ∀ c ∈ text, c.isDigit = true)
    (hlength : Text.digitLimit < text.length) : IsOverlong (Utf8.encode text) := by
  have hascii : ∀ c ∈ text, 0x30 ≤ c.toNat ∧ c.toNat ≤ 0x39 :=
    fun c hm => Char.isDigit_iff_toNat.1 (hd c hm)
  have hbytes := Utf8.encode_ascii fun c hm => Nat.lt_of_le_of_lt (hascii c hm).2 (by decide)
  rw [hbytes]
  constructor
  · intro byte hm
    obtain ⟨c, hc, rfl⟩ := List.mem_map.1 hm
    have hrange := hascii c hc
    rw [UInt8.toNat_ofNat']
    omega
  · rwa [List.length_map]

namespace Scope

variable {scope : Scope} {token : Token} {defect : Defect}

/-- **The only internal error of a word is that it has too many digits.** -/
theorem step_eq_internal (h : scope.step token = .error (.internal defect)) :
    (∀ c ∈ token.text, c.isDigit = true) ∧ Text.digitLimit < token.text.length := by
  have hrefuses := (step_eq_error_iff ..).1 h
  generalize token.text = word at hrefuses ⊢
  cases hrefuses with
  | tooManyDigits hd hlength => exact ⟨hd, hlength⟩

/-- **A run comes to an internal error at such a word only.** -/
theorem run_eq_internal {tokens : List Token} (h : scope.run tokens = .error (.internal defect)) :
    ∃ token ∈ tokens, (∀ c ∈ token.text, c.isDigit = true) ∧
      Text.digitLimit < token.text.length := by
  obtain ⟨i, token, words, later, htoken, -, hstep⟩ := (run_eq_error_iff _ _ _).1 h
  exact ⟨token, List.mem_of_getElem? htoken, step_eq_internal hstep⟩

end Scope

namespace Assembler

variable {assembler : Assembler} {bytes : List UInt8} {file : String} {words : List Int}

/-- A program that comes to an internal error has a number of too many digits. -/
theorem exists_isOverlong (hname : ofName? assembler.encoding = some .utf8) {defect : Defect}
    (h : (assembler.assembleBytes bytes file).result = .error (.internal defect)) :
    ∃ word ∈ wordsOfBytes bytes, IsOverlong word := by
  rw [result_eq_error_iff, outcome, Scope.outcome_eq_error_iff] at h
  rcases h with hr | ⟨-, hf⟩
  · obtain ⟨token, hm, hd, hlength⟩ := Scope.run_eq_internal hr
    have hword := List.mem_map_of_mem (f := fun token => Utf8.encode token.text) hm
    exact ⟨_, (Source.items_prefix_wordsOfBytes hname file bytes).subset hword,
      isOverlong_encode hd hlength⟩
  · -- Bytes that are no text are reported as an error of the program.
    obtain ⟨text, rest, -, ⟨-, hnone, -⟩ | ⟨⟨diagnostic, hsome⟩, -⟩⟩ :=
      Source.exists_text_of_utf8 hname file bytes
    · rw [hnone] at hf
      cases hf
    · rw [hsome] at hf
      cases hf

/-- A program has no more words than its bytes. -/
theorem length_le_wordsOfBytes (hname : ofName? assembler.encoding = some .utf8)
    (h : (assembler.assembleBytes bytes file).result = .ok words) :
    words.length ≤ (wordsOfBytes bytes).length := by
  obtain ⟨later, ho⟩ := (result_eq_ok_iff words).1 h
  have hlength := (Scope.run_grows ((Scope.outcome_eq_ok_iff ..).1 ho).1).1
  have hle := (Source.items_prefix_wordsOfBytes hname file bytes).length_le
  rwa [List.length_map, ← hlength] at hle

/-- A program with a number that is no word is very long. -/
theorem lt_length_of_not_fits (hpredefined : ∀ entry ∈ assembler.predefined.entries,
      Word.Fits entry.2)
    (h : (assembler.assembleBytes bytes file).result = .ok words) {word : Int} (hm : word ∈ words)
    (hfits : ¬ Word.Fits word) : 2 ^ 32 < words.length := by
  obtain ⟨i, hlt, rfl⟩ := List.getElem_of_mem hm
  have hvalue := isValueAfter_of_assembleBytes hpredefined h i (List.getElem?_eq_getElem hlt)
  obtain ⟨hlarge, hle⟩ := hvalue.le_of_not_fits hfits
  omega

end Assembler

end StackAssembler

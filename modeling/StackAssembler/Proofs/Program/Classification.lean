import StackAssembler.Proofs.Program.Shape

/-!
# The grammar of words

The kinds of words are told apart by four tests that are tried in turn, one of which compares in
lower case.  Here their shapes are described letter by letter.  The description and the tests agree
on every word, a word that fits no description is reported, and neither the order of the tests nor
the choice of a case mapping for all of Unicode makes a difference.

## Main definitions

* `Kind.Describes`: what the words of a kind look like.
-/

namespace StackAssembler.Kind

/-- What the words of a kind look like. -/
def Describes : Kind → List Char → Prop
  | integer, word => ∀ c ∈ word, '0' ≤ c ∧ c ≤ '9'
  | instruction, word => (∀ c ∈ word, c.toNat < 128) ∧ ∃ op, Spells word op
  | labelDefinition, word => ∃ name, IsName name ∧ word = name ++ [':']
  | labelReference, word => ∃ name, IsName name ∧ word = '&' :: name

/-- The letters of an instruction are ASCII. -/
theorem ascii_of_spells {word : List Char} {op : Opcode} (h : Spells word op) :
    ∀ c ∈ word, c.toNat < 128 := by
  intro c hc
  by_contra hle
  have hm : c.toLower ∈ op.mnemonic := h ▸ List.mem_map_of_mem hc
  rw [Text.toLower_of_le (Nat.le_of_not_lt hle)] at hm
  exact hle (ascii_of_mem_mnemonic op c hm).1

/-- **The test for a kind and its description agree.** -/
theorem fits_iff_describes (kind : Kind) (word : List Char) :
    kind.fits word = true ↔ kind.Describes word := by
  cases kind with
  | integer =>
      rw [fits, isInteger_iff, Describes]
      simp only [Char.isDigit, Bool.and_eq_true, decide_eq_true_eq]
      rfl
  | instruction =>
      rw [fits, isInstruction_iff, Describes]
      constructor
      · rintro ⟨op, hs⟩
        exact ⟨ascii_of_spells hs, op, hs⟩
      · exact fun h => h.2
  | labelDefinition => exact isLabelDefinition_iff word
  | labelReference => exact isLabelReference_iff word

/-- Whatever the order of the tests, they find the same kind. -/
theorem find?_of_perm {kinds : List Kind} (h : kinds.Perm all) (word : List Char) :
    kinds.find? (fun kind => kind.fits word) = ofWord? word := by
  apply Option.ext
  intro kind
  have hm : kind ∈ kinds := h.mem_iff.2 kind.mem_all
  rw [find?_eq_some_iff hm, ofWord?_eq_some_iff]

theorem ofWord_eq_ok_iff (word : List Char) (location : Option Location) (kind : Kind) :
    ofWord word location = .ok kind ↔ ofWord? word = some kind := by
  rw [ofWord]
  cases ofWord? word <;> simp

theorem ofWord?_eq_none_iff (word : List Char) :
    ofWord? word = none ↔ ∀ kind : Kind, ¬ kind.Describes word := by
  simp only [← fits_iff_describes, ← ofWord?_eq_some_iff]
  exact Option.eq_none_iff_forall_ne_some

/-- **Words are classified by their descriptions.**  A word is of a kind if it is as the words of
the kind are described, and a word of no description is reported as it is.  The tests for the kinds
never compete: no word passes two of them, so they find the same in any order.  And the test for an
instruction finds the same as a comparison in lower case would in all of Unicode. -/
theorem ofWord_classifies (word : List Char) (location : Option Location) :
    (∀ kind, ofWord word location = .ok kind ↔ kind.Describes word) ∧
      (ofWord word location = .error (.program ⟨.unrecognized word, location⟩) ↔
        ∀ kind : Kind, ¬ kind.Describes word) ∧
      (∀ kind other : Kind, kind.fits word = true → other.fits word = true → kind = other) ∧
      (∀ kinds : List Kind, kinds.Perm all →
        kinds.find? (fun kind => kind.fits word) = ofWord? word) ∧
      ∀ lowering, Text.IsLowering lowering →
        (instruction.fits word = true ↔ ∃ op : Opcode, lowering word = op.mnemonic) := by
  refine ⟨fun kind => ?_, ?_, fun kind other => eq_of_fits, fun kinds h => find?_of_perm h word, ?_⟩
  · rw [ofWord_eq_ok_iff, ofWord?_eq_some_iff, fits_iff_describes]
  · rw [← ofWord?_eq_none_iff, ofWord]
    cases ofWord? word <;> simp
  · intro lowering h
    simp only [lowering_eq_mnemonic_iff h]
    exact isInstruction_iff word

/-- The Kelvin sign is a `k` in lower case, but no letter of a name or of an instruction. -/
example : ofWord? ['\u212a'] = none ∧ ofWord? ['J', 'm', 'P'] = some .instruction := by
  decide

end StackAssembler.Kind

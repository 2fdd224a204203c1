import StackAssembler.Proofs.Program.Classification
import StackAssembler.Proofs.Program.Literal
import StackAssembler.Proofs.Source.Unreadable

/-!
# Words that are refused

A word is classified by one set of tests and encoded by the encoder of its kind, which has tests of
its own.  The two agree: the encoder finds every word to be of the shape that the classifier has
found.  `Scope.Refuses` lists what is left to be wrong with a word, and of what a failed program
reports only that and what is wrong with the input can be the cause.

## Main definitions

* `Scope.Refuses`: a scope refuses a word.
* `Kind.Accepts`: the encoder of a kind accepts the shape of a word.
-/

namespace StackAssembler

namespace Scope

/-- A scope refuses a word at a place, with a failure. -/
inductive Refuses (scope : Scope) (location : Location) : List Char → Failure → Prop
  | unrecognized {word : List Char} : Kind.ofWord? word = none →
      Refuses scope location word (.program ⟨.unrecognized word, some location⟩)
  | empty : Refuses scope location [] (.program ⟨.badLiteral [] .empty, some location⟩)
  | outOfRange {word : List Char} : (∀ c ∈ word, c.isDigit = true) → word.length ≤ 4300 →
      2 ^ 31 - 1 < literalValue word →
      Refuses scope location word (.program ⟨.badLiteral word .outOfRange, some location⟩)
  | tooManyDigits {word : List Char} : (∀ c ∈ word, c.isDigit = true) → 4300 < word.length →
      Refuses scope location word (.internal (.tooManyDigits word.length))
  | duplicate {name : LabelName} : IsName name → name ∈ scope.labels.names →
      Refuses scope location (name ++ [':'])
        (.program ⟨.duplicateLabel name (scope.origins.lookup name), some location⟩)
  | undefined {name : LabelName} : IsName name → name ∉ scope.labels.names →
      Refuses scope location ('&' :: name)
        (.program ⟨.undefinedLabel name (scope.similar name), some location⟩)

/-- **A step fails on the words that the scope refuses, and on no others.** -/
theorem step_eq_error_iff (scope : Scope) (token : Token) (failure : Failure) :
    scope.step token = .error failure ↔ scope.Refuses token.location token.text failure := by
  constructor
  · intro h
    cases Shape.of token.text with
    | empty ht =>
        rw [step_of_empty ht] at h
        cases h
        rw [ht]
        exact .empty
    | digits hne hd =>
        rw [step_of_digits hne hd] at h
        split_ifs at h with hlength hvalue
        · cases h
          exact .tooManyDigits hd hlength
        · cases h
          exact .outOfRange hd (Nat.not_lt.1 hlength) (Nat.not_le.1 hvalue)
    | mnemonic hs =>
        rw [step_of_spells hs] at h
        cases h
    | definition hn ht =>
        rw [step_of_definition hn ht] at h
        split_ifs at h with hm
        cases h
        rw [ht]
        exact .duplicate hn hm
    | @reference name hn ht =>
        rw [step_of_reference hn ht] at h
        split at h
        · cases h
        · next hget =>
            cases h
            rw [ht]
            refine .undefined hn fun hm => ?_
            obtain ⟨address, haddress⟩ := (LabelTable.mem_names_iff ..).1 hm
            rw [hget] at haddress
            cases haddress
    | unrecognized hk =>
        rw [step_of_unrecognized hk] at h
        cases h
        exact .unrecognized hk
  · intro h
    generalize ht : token.text = text at h
    cases h with
    | unrecognized hk => exact ht ▸ step_of_unrecognized (ht.symm ▸ hk)
    | empty => exact step_of_empty ht
    | outOfRange hd hlength hvalue =>
        subst ht
        have hne : token.text ≠ [] := by
          intro hnil
          rw [hnil] at hvalue
          cases hvalue
        rw [step_of_digits hne hd, if_neg (Nat.not_lt.2 hlength), if_neg (Nat.not_le.2 hvalue)]
    | tooManyDigits hd hlength =>
        subst ht
        have hne : token.text ≠ [] := List.ne_nil_of_length_pos (Nat.zero_lt_of_lt hlength)
        rw [step_of_digits hne hd, if_pos hlength]
    | duplicate hn hm => rw [step_of_definition hn ht, if_pos hm]
    | undefined hn hm => simp only [step_of_reference hn ht, LabelTable.get?_eq_none hm]

end Scope

/-! ## Encoders -/

/-- The encoder of a kind accepts the shape of a word.  An instruction has an opcode, nothing is
wrong with a literal but that it is empty, too large or too long to be read, and a label is entered
or looked up by its name. -/
def Kind.Accepts : Kind → List Char → Prop
  | integer, word => ∀ location failure, Scope.encodeInteger word location = .error failure →
      word = [] ∧ failure = .program ⟨.badLiteral [] .empty, location⟩ ∨
        2 ^ 31 - 1 < decimalValue word ∧
          failure = .program ⟨.badLiteral word .outOfRange, location⟩ ∨
        4300 < word.length ∧ failure = .internal (.tooManyDigits word.length)
  | instruction, word => ∃ op : Opcode, ∀ location,
      Scope.encodeInstruction word location = .ok op.number
  | labelDefinition, word => ∃ name, IsName name ∧ ∀ scope location,
      (name ∈ scope.labels.names → ∃ first, Scope.define scope word location =
        .error (.program ⟨.duplicateLabel name first, location⟩)) ∧
      (name ∉ scope.labels.names → ∃ later, Scope.define scope word location = .ok later ∧
        later.labels = scope.labels.insert name scope.index)
  | labelReference, word => ∃ name, IsName name ∧ ∀ scope location,
      (∀ address, scope.labels.get? name = some address →
        Scope.resolve scope word location = .ok address) ∧
      (name ∉ scope.labels.names → ∃ similar, Scope.resolve scope word location =
        .error (.program ⟨.undefinedLabel name similar, location⟩))

/-- **The encoder of a kind accepts the shape of every word of the kind.** -/
theorem Kind.accepts_of_fits {kind : Kind} {word : List Char} (h : kind.fits word = true) :
    kind.Accepts word := by
  cases kind with
  | integer =>
      have hd := (isInteger_iff word).1 h
      intro location failure hfail
      by_cases hne : word = []
      · subst hne
        cases hfail
        exact .inl ⟨rfl, rfl⟩
      · rw [Scope.encodeInteger_of_digits hne hd, literalValue_eq_decimalValue] at hfail
        split_ifs at hfail with hlength hvalue
        · cases hfail
          exact .inr (.inr ⟨hlength, rfl⟩)
        · cases hfail
          exact .inr (.inl ⟨Nat.not_le.1 hvalue, rfl⟩)
  | instruction =>
      obtain ⟨op, hs⟩ := (isInstruction_iff word).1 h
      refine ⟨op, fun location => ?_⟩
      rw [Scope.encodeInstruction, (ofMnemonic?_eq_some_iff word op).2 hs]
  | labelDefinition =>
      obtain ⟨name, hn, rfl⟩ := (isLabelDefinition_iff word).1 h
      refine ⟨name, hn, fun scope location => ?_⟩
      rw [Scope.define, List.dropLast_concat]
      constructor
      · intro hm
        rw [if_pos ((LabelTable.contains_iff ..).2 hm)]
        exact ⟨_, rfl⟩
      · intro hm
        rw [if_neg (mt (LabelTable.contains_iff ..).1 hm)]
        exact ⟨_, rfl, rfl⟩
  | labelReference =>
      obtain ⟨name, hn, rfl⟩ := (isLabelReference_iff word).1 h
      refine ⟨name, hn, fun scope location => ?_⟩
      rw [Scope.resolve, List.tail_cons]
      constructor
      · intro address haddress
        rw [haddress]
      · intro hm
        rw [LabelTable.get?_eq_none hm]
        exact ⟨_, rfl⟩

/-! ## Programs -/

namespace Assembler

variable {assembler : Assembler} {source : Source} {name : Option String} {failure : Failure}

/-- What fails in a program is that it is written, that it is read, or one of the words that are
read. -/
theorem stages_of_assemble (h : (assembler.assemble source name).result = .error failure) :
    source.toBytes assembler.encoding = .error failure ∨
      ∃ bytes, source.toBytes assembler.encoding = .ok bytes ∧
        let tokens := Source.tokens (name.getD assembler.file) assembler.encoding bytes
        (tokens.failure? = some failure ∨
          ∃ i, (Scope.start assembler.predefined).FailsAt tokens.items i failure) := by
  rw [assemble] at h
  split at h
  · next bytes hbytes =>
      refine .inr ⟨bytes, hbytes, ?_⟩
      rw [result_eq_error_iff, outcome, Scope.outcome_eq_error_iff] at h
      rcases h with hrun | ⟨-, hread⟩
      · exact .inr ((Scope.run_eq_error_iff ..).1 hrun)
      · exact .inl hread
  · next other hbytes =>
      cases h
      exact .inl hbytes

/-- So it is its input or one of the words. -/
theorem failsAt_of_assemble (h : (assembler.assemble source name).result = .error failure) :
    (∃ location, failure.OfInput location) ∨
      ∃ bytes i, source.toBytes assembler.encoding = .ok bytes ∧
        (Scope.start assembler.predefined).FailsAt
          (Source.tokens (name.getD assembler.file) assembler.encoding bytes).items i failure := by
  rcases stages_of_assemble h with hwrite | ⟨bytes, hbytes, hread | ⟨i, hfails⟩⟩
  · exact .inl ⟨none, Source.ofInput_of_toBytes hwrite⟩
  · exact .inl (Source.ofInput_of_tokens hread)
  · exact .inr ⟨bytes, i, hbytes, hfails⟩

/-- Such a word is one that a scope refuses. -/
theorem refused_of_assemble (h : (assembler.assemble source name).result = .error failure) :
    (∃ location, failure.OfInput location) ∨
      ∃ (scope : Scope) (location : Location) (word : List Char),
        scope.Refuses location word failure := by
  rcases failsAt_of_assemble h with hinput | ⟨_, _, -, token, words, later, -, -, hstep⟩
  · exact .inl hinput
  · exact .inr ⟨later, _, _, (Scope.step_eq_error_iff ..).1 hstep⟩

/-- **Classifying and encoding agree.**  The encoder of a kind accepts the shape of every word that
is classified as of the kind.  So no program fails with an unknown mnemonic, an unknown kind or a
literal that is not decimal: what is wrong with a literal is that it is empty or too large, and what
is wrong with a label is about its name. -/
theorem encoders_agree (assembler : Assembler) (source : Source) (name : Option String) :
    (∀ word location kind, Kind.ofWord word location = .ok kind → kind.Accepts word) ∧
    ∀ failure, (assembler.assemble source name).result = .error failure →
      (∀ mnemonic location, failure ≠ .program ⟨.unknownMnemonic mnemonic, location⟩) ∧
      (∀ kind, failure ≠ .internal (.unknownKind kind)) ∧
      (∀ literal flaw location, failure = .program ⟨.badLiteral literal flaw, location⟩ →
        literal = [] ∧ flaw = .empty ∨
          (∀ c ∈ literal, '0' ≤ c ∧ c ≤ '9') ∧ 2 ^ 31 - 1 < decimalValue literal ∧
            flaw = .outOfRange) ∧
      (∀ label first location, failure = .program ⟨.duplicateLabel label first, location⟩ →
        IsName label) ∧
      ∀ label similar location, failure = .program ⟨.undefinedLabel label similar, location⟩ →
        IsName label := by
  constructor
  · intro word location kind hk
    rw [Kind.ofWord_eq_ok_iff, Kind.ofWord?_eq_some_iff] at hk
    exact Kind.accepts_of_fits hk
  intro failure h
  rcases refused_of_assemble h with ⟨location, hinput⟩ | ⟨scope, location, word, hrefuses⟩
  · cases hinput <;> simp
  · cases hrefuses with
    | unrecognized => simp
    | empty => simp
    | @outOfRange word hd _ hvalue =>
        rw [literalValue_eq_decimalValue] at hvalue
        have hdecimal : ∀ c ∈ word, '0' ≤ c ∧ c ≤ '9' :=
          (Kind.fits_iff_describes .integer word).1 ((Kind.isInteger_iff word).2 hd)
        refine ⟨by simp, by simp, ?_, by simp, by simp⟩
        rintro literal flaw location ⟨⟩
        exact .inr ⟨hdecimal, hvalue, rfl⟩
    | tooManyDigits => simp
    | duplicate hn => simp [hn]
    | undefined hn => simp [hn]

/-- A digit of another script is no digit for the classifier, and so never comes to the encoder of
literals. -/
example : ((new .empty "utf-8" "<input>").assemble (.text ['\u0663']) none).result =
    .error (.program ⟨.unrecognized ['\u0663'], some ⟨"<input>", 1, 1⟩⟩) := by
  decide +kernel

end Assembler

end StackAssembler

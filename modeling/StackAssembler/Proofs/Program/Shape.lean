import StackAssembler.LabelTable
import StackAssembler.Lexeme
import StackAssembler.Proofs.Text.Case

/-!
# The shapes of words

What the words of a program look like, said without the order in which the kinds are tried: a name,
the mnemonic of an instruction in some mixture of cases, a definition, a reference.  No word has the
shape of two kinds, so the order does not matter: a word is of a kind exactly if it has its shape.
-/

namespace StackAssembler

/-- One or more of the letters `a` to `z` and the underscore. -/
def IsName (name : LabelName) : Prop :=
  name ≠ [] ∧ ∀ c ∈ name, ('a' ≤ c ∧ c ≤ 'z') ∨ c = '_'

instance (name : LabelName) : Decidable (IsName name) := inferInstanceAs (Decidable (_ ∧ _))

/-- The word is the mnemonic of the instruction, up to the case of ASCII letters. -/
def Spells (word : List Char) (op : Opcode) : Prop := word.map Char.toLower = op.mnemonic

theorem isLabelChar_iff (c : Char) :
    Kind.isLabelChar c = true ↔ ('a' ≤ c ∧ c ≤ 'z') ∨ c = '_' := by
  simp only [Kind.isLabelChar, Bool.or_eq_true, Bool.and_eq_true, decide_eq_true_eq, beq_iff_eq]

theorem all_isLabelChar_iff (name : LabelName) :
    name.all Kind.isLabelChar = true ↔ ∀ c ∈ name, ('a' ≤ c ∧ c ≤ 'z') ∨ c = '_' := by
  simp only [List.all_eq_true, isLabelChar_iff]

theorem IsName.not_mem {name : LabelName} (h : IsName name) {c : Char}
    (hc : Kind.isLabelChar c = false) : c ∉ name := by
  intro hm
  rw [(isLabelChar_iff c).2 (h.2 c hm)] at hc
  cases hc

/-! ## Mnemonics -/

/-- Mnemonics are ASCII, and there is no `k` in them. -/
theorem ascii_of_mem_mnemonic (op : Opcode) : ∀ d ∈ op.mnemonic, d.toNat < 128 ∧ d ≠ 'k' := by
  have h : op.mnemonic.all (fun d => decide (d.toNat < 128 ∧ d ≠ 'k')) = true := by
    cases op <;> rfl
  simpa only [List.all_eq_true, decide_eq_true_eq] using h

/-- For mnemonics the lower case of all of Unicode and that of ASCII are one. -/
theorem lowering_eq_mnemonic_iff {lowering : List Char → List Char}
    (h : Text.IsLowering lowering) (word : List Char) (op : Opcode) :
    lowering word = op.mnemonic ↔ Spells word op :=
  h.eq_iff (ascii_of_mem_mnemonic op) word

/-- **A word names an instruction exactly if it spells its mnemonic.** -/
theorem ofMnemonic?_eq_some_iff (word : List Char) (op : Opcode) :
    Opcode.ofMnemonic? word = some op ↔ Spells word op := by
  rw [← lowering_eq_mnemonic_iff Text.isLowering_lower]
  constructor
  · exact fun h => (Opcode.mnemonic_of_ofMnemonic? h).symm
  · intro h
    have hop : Text.lower op.mnemonic = op.mnemonic :=
      (Opcode.mnemonic_of_ofMnemonic? (Opcode.ofMnemonic?_mnemonic op)).symm
    rw [Opcode.ofMnemonic?, h, ← hop]
    exact Opcode.ofMnemonic?_mnemonic op

/-! ## Kinds -/

namespace Kind

theorem isInteger_iff (word : List Char) :
    isInteger word = true ↔ ∀ c ∈ word, c.isDigit = true := by
  rw [isInteger, List.all_eq_true]

theorem isInstruction_iff (word : List Char) :
    isInstruction word = true ↔ ∃ op, Spells word op := by
  rw [isInstruction, Option.isSome_iff_exists]
  simp only [ofMnemonic?_eq_some_iff]

/-- A definition is a name followed by a colon. -/
theorem isLabelDefinition_iff (word : List Char) :
    isLabelDefinition word = true ↔ ∃ name, IsName name ∧ word = name ++ [':'] := by
  simp only [isLabelDefinition, Bool.and_eq_true, decide_eq_true_eq, beq_iff_eq,
    all_isLabelChar_iff]
  constructor
  · rintro ⟨⟨hlen, hlast⟩, hall⟩
    obtain ⟨name, rfl⟩ := List.getLast?_eq_some_iff.1 hlast
    rw [List.dropLast_concat] at hall
    refine ⟨name, ⟨?_, hall⟩, rfl⟩
    rintro rfl
    simp at hlen
  · rintro ⟨name, ⟨hne, hall⟩, rfl⟩
    have hpos := List.length_pos_iff.2 hne
    refine ⟨⟨?_, List.getLast?_concat⟩, by rwa [List.dropLast_concat]⟩
    rw [List.length_append, List.length_singleton]
    omega

/-- A reference is a name after an ampersand. -/
theorem isLabelReference_iff (word : List Char) :
    isLabelReference word = true ↔ ∃ name, IsName name ∧ word = '&' :: name := by
  simp only [isLabelReference, Bool.and_eq_true, decide_eq_true_eq, beq_iff_eq,
    all_isLabelChar_iff]
  constructor
  · rintro ⟨⟨hlen, hhead⟩, hall⟩
    obtain ⟨name, rfl⟩ := List.head?_eq_some_iff.1 hhead
    refine ⟨name, ⟨?_, hall⟩, rfl⟩
    rintro rfl
    simp at hlen
  · rintro ⟨name, ⟨hne, hall⟩, rfl⟩
    have hpos := List.length_pos_iff.2 hne
    refine ⟨⟨?_, rfl⟩, hall⟩
    rw [List.length_cons]
    omega

/-- A mnemonic is not all digits. -/
theorem exists_letter (op : Opcode) : ∃ c ∈ op.mnemonic, c.isDigit = false := by
  have h : op.mnemonic.any (fun c => !c.isDigit) = true := by cases op <;> rfl
  simpa only [List.any_eq_true, Bool.not_eq_true'] using h

/-- A mnemonic has no mark of a label in it. -/
theorem mark_not_mem_mnemonic (op : Opcode) : ':' ∉ op.mnemonic ∧ '&' ∉ op.mnemonic := by
  cases op <;> decide

theorem toLower_of_isDigit {c : Char} (h : c.isDigit = true) : c.toLower = c := by
  simp only [Char.isDigit, Bool.and_eq_true, decide_eq_true_eq] at h
  refine dif_neg ?_
  rintro ⟨hA, -⟩
  exact absurd (UInt32.le_trans hA h.2) (by decide)

theorem not_spells_of_digits {word : List Char} (h : ∀ c ∈ word, c.isDigit = true) (op : Opcode) :
    ¬ Spells word op := by
  intro hs
  obtain ⟨c, hc, hd⟩ := exists_letter op
  rw [← hs, List.mem_map] at hc
  obtain ⟨d, hdw, rfl⟩ := hc
  rw [toLower_of_isDigit (h d hdw), h d hdw] at hd
  cases hd

/-- What tells a shape from the others: digits, and the marks of labels. -/
def Marked (word : List Char) : Kind → Prop
  | integer => (∀ c ∈ word, c.isDigit = true) ∧ ':' ∉ word ∧ '&' ∉ word
  | instruction => ¬ (∀ c ∈ word, c.isDigit = true) ∧ ':' ∉ word ∧ '&' ∉ word
  | labelDefinition => ':' ∈ word ∧ '&' ∉ word
  | labelReference => '&' ∈ word

theorem marked_of_fits {word : List Char} {kind : Kind} (h : kind.fits word = true) :
    Marked word kind := by
  cases kind with
  | integer =>
      have hd := (isInteger_iff word).1 h
      exact ⟨hd, fun hm => absurd (hd ':' hm) (by decide), fun hm => absurd (hd '&' hm) (by decide)⟩
  | instruction =>
      obtain ⟨op, hs⟩ := (isInstruction_iff word).1 h
      have hm := mark_not_mem_mnemonic op
      refine ⟨fun hd => not_spells_of_digits hd op hs, fun hc => ?_, fun ha => ?_⟩
      · exact hm.1 (hs ▸ List.mem_map_of_mem hc)
      · exact hm.2 (hs ▸ List.mem_map_of_mem ha)
  | labelDefinition =>
      obtain ⟨name, hn, rfl⟩ := (isLabelDefinition_iff word).1 h
      have hname : '&' ∉ name := hn.not_mem (by decide)
      exact ⟨by simp, by simpa using hname⟩
  | labelReference =>
      obtain ⟨name, -, rfl⟩ := (isLabelReference_iff word).1 h
      exact List.mem_cons_self

/-- **No word has the shapes of two kinds.** -/
theorem eq_of_fits {word : List Char} {kind other : Kind} (h : kind.fits word = true)
    (h' : other.fits word = true) : kind = other := by
  have hm := marked_of_fits h
  have hm' := marked_of_fits h'
  cases kind <;> cases other <;> simp only [Marked] at hm hm' <;> first | rfl | tauto

theorem mem_all (kind : Kind) : kind ∈ all := by
  cases kind <;> decide

/-- Among any kinds a kind is found exactly if the word has its shape, since no other kind can be
found before it. -/
theorem find?_eq_some_iff {kinds : List Kind} {kind : Kind} (hm : kind ∈ kinds)
    (word : List Char) :
    kinds.find? (fun kind => kind.fits word) = some kind ↔ kind.fits word = true := by
  constructor
  · exact fun h => by simpa using List.find?_some h
  · intro h
    cases ho : kinds.find? fun kind => kind.fits word with
    | none => exact absurd h (by simpa using List.find?_eq_none.1 ho kind hm)
    | some other =>
        have hother : other.fits word = true := by simpa using List.find?_some ho
        rw [eq_of_fits hother h]

/-- **A word is of a kind exactly if it has its shape**, so the order of the kinds is no matter. -/
theorem ofWord?_eq_some_iff (word : List Char) (kind : Kind) :
    ofWord? word = some kind ↔ kind.fits word = true :=
  find?_eq_some_iff kind.mem_all word

end Kind

/-! ## Shapes -/

/-- The shapes of words, that of no kind among them. -/
inductive Shape (word : List Char) : Prop
  | empty : word = [] → Shape word
  | digits : word ≠ [] → (∀ c ∈ word, c.isDigit = true) → Shape word
  | mnemonic {op : Opcode} : Spells word op → Shape word
  | definition {name : LabelName} : IsName name → word = name ++ [':'] → Shape word
  | reference {name : LabelName} : IsName name → word = '&' :: name → Shape word
  | unrecognized : Kind.ofWord? word = none → Shape word

/-- Every word has a shape. -/
theorem Shape.of (word : List Char) : Shape word := by
  cases hk : Kind.ofWord? word with
  | none => exact .unrecognized hk
  | some kind =>
      have hf := (Kind.ofWord?_eq_some_iff _ _).1 hk
      cases kind with
      | integer =>
          have hd := (Kind.isInteger_iff _).1 hf
          by_cases hne : word = []
          · exact .empty hne
          · exact .digits hne hd
      | instruction =>
          obtain ⟨op, hs⟩ := (Kind.isInstruction_iff _).1 hf
          exact .mnemonic hs
      | labelDefinition =>
          obtain ⟨name, hn, h⟩ := (Kind.isLabelDefinition_iff _).1 hf
          exact .definition hn h
      | labelReference =>
          obtain ⟨name, hn, h⟩ := (Kind.isLabelReference_iff _).1 hf
          exact .reference hn h

end StackAssembler

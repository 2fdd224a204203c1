import StackAssembler.Proofs.Output.Checked
import StackAssembler.Proofs.Program.History
import StackAssembler.Proofs.Program.Meaning

/-!
# The range of words

Opcodes and literals are words of the machine, and so are the addresses of predefined labels.  The
address of a label that a program defines is the number of the word that defines it, and nothing
reduces that to a word.  So every word fits as long as no label is defined behind the first
`2 ^ 32 - 1` words, and a longer program may come to a number that is no word.

The invariant is `Scope.IsRanged`: every address is a word of the machine or counts one of the words
so far.
-/

namespace StackAssembler

/-- What a word may come to that has `count` words before it: a word of the machine, or the number
of a word before it. -/
def IsValueAfter (count : Nat) (value : Int) : Prop :=
  Word.Fits value ∨ 1 ≤ value ∧ value ≤ count

namespace IsValueAfter

variable {count : Nat} {value : Int}

theorem mono (h : IsValueAfter count value) : IsValueAfter (count + 1) value :=
  h.imp_right fun ⟨hpos, hle⟩ => ⟨hpos, by omega⟩

/-- After fewer than `2 ^ 32` words every value fits. -/
theorem fits (h : IsValueAfter count value) (hcount : count < 2 ^ 32) : Word.Fits value := by
  rcases h with h | ⟨hpos, hle⟩
  · exact h
  · simp only [Word.Fits, Word.max]
    omega

/-- What does not fit is the number of a word before. -/
theorem le_of_not_fits (h : IsValueAfter count value) (hfits : ¬ Word.Fits value) :
    2 ^ 32 ≤ value ∧ value ≤ count := by
  rcases h with h | ⟨hpos, hle⟩
  · exact absurd h hfits
  · simp only [Word.Fits, Word.max] at hfits
    omega

end IsValueAfter

namespace Scope

/-- What holds of the addresses after `count` words. -/
structure IsRanged (count : Nat) (scope : Scope) : Prop where
  index : scope.index = count + 1
  address : ∀ entry ∈ scope.labels.entries, IsValueAfter count entry.2

theorem isRanged_start {predefined : LabelTable}
    (h : ∀ entry ∈ predefined.entries, Word.Fits entry.2) : (start predefined).IsRanged 0 :=
  ⟨rfl, fun entry hm => .inl (h entry hm)⟩

namespace IsRanged

variable {count : Nat} {scope later : Scope} {location : Location} {word : List Char}
variable {value : Int}

/-- A word that is taken comes to a value of the range. -/
theorem isValueAfter (h : scope.IsRanged count) (ht : scope.Takes location word value later) :
    IsValueAfter count value := by
  cases ht with
  | literal hl =>
      have hle := hl.value_le
      refine .inl ⟨Int.natCast_nonneg _, ?_⟩
      simp only [Word.max]
      omega
  | @instruction _ op hs =>
      have hlt := op.number_lt
      refine .inl ⟨Int.natCast_nonneg _, ?_⟩
      simp only [Word.max]
      omega
  | definition hn hnew => exact .inl (by decide)
  | @reference name _ hn hget =>
      exact h.address (name, value) ((LabelTable.get?_eq_some_iff ..).1 hget)

/-- **A word that is taken keeps the invariant.** -/
theorem advance (h : scope.IsRanged count) (ht : scope.Takes location word value later) :
    later.advance.IsRanged (count + 1) := by
  obtain ⟨hi, new, he, hnew⟩ := ht.grows
  constructor
  · rw [Scope.advance, hi, h.index]
  · intro entry hm
    rw [Scope.advance, he, List.mem_append] at hm
    rcases hm with hm | hm
    · exact (h.address entry hm).mono
    · have haddress := hnew entry hm
      rw [h.index] at haddress
      exact .inr ⟨by omega, by omega⟩

/-- **In a run every word comes to a value of its range.** -/
theorem run (h : scope.IsRanged count) {tokens : List Token} {values : List Int}
    (hr : scope.run tokens = .ok (values, later)) (i : Nat) (hi : values[i]? = some value) :
    IsValueAfter (count + i) value := by
  induction tokens generalizing scope count values i with
  | nil =>
      cases hr
      simp at hi
  | cons token rest ih =>
      obtain ⟨first, next, more, hs, hrest, rfl⟩ := (run_cons_eq_ok_iff ..).1 hr
      have ht := (step_eq_ok_iff ..).1 hs
      cases i with
      | zero =>
          cases hi
          exact h.isValueAfter ht
      | succ i =>
          rw [List.getElem?_cons_succ] at hi
          have hvalue := ih (h.advance ht) hrest i hi
          rwa [Nat.add_right_comm] at hvalue

end IsRanged

end Scope

namespace Assembler

variable {assembler : Assembler} {words : List Int}

/-- An assembler with settings has addresses that are words. -/
theorem IsSet.fits {definitions : List (LabelName × Int)} {encoding file : String}
    (h : assembler.IsSet definitions encoding file) :
    ∀ entry ∈ assembler.predefined.entries, Word.Fits entry.2 := by
  intro entry hm
  rw [h.predefined, LabelTable.wrapped, List.mem_map] at hm
  obtain ⟨⟨name, address⟩, -, rfl⟩ := hm
  exact Word.fits_wrap address

/-- The words of bytes are in their range, if the predefined addresses are words. -/
theorem isValueAfter_of_assembleBytes
    (h : ∀ entry ∈ assembler.predefined.entries, Word.Fits entry.2) {bytes : List UInt8}
    {file : String} (hr : (assembler.assembleBytes bytes file).result = .ok words) (i : Nat)
    {word : Int} (hi : words[i]? = some word) : IsValueAfter i word := by
  obtain ⟨later, ho⟩ := (result_eq_ok_iff words).1 hr
  have hvalue := (Scope.isRanged_start h).run ((Scope.outcome_eq_ok_iff ..).1 ho).1 i hi
  rwa [Nat.zero_add] at hvalue

/-- So are those of a program. -/
theorem isValueAfter_of_assemble
    (h : ∀ entry ∈ assembler.predefined.entries, Word.Fits entry.2) {source : Source}
    {file : Option String} (hr : (assembler.assemble source file).result = .ok words) (i : Nat)
    {word : Int} (hi : words[i]? = some word) : IsValueAfter i word := by
  rw [assemble] at hr
  split at hr
  · exact isValueAfter_of_assembleBytes h hr i hi
  · cases hr

/-- **Every word is a word of the machine, or the number of a word before it** that is too large
for one.  So all words of a program of at most `2 ^ 32` words fit, and can be written in either byte
order and in both styles.  This holds after whatever the assembler has been asked for before. -/
theorem words_fit_of_assemble (predefined : LabelTable) (encoding file : String)
    (operations : List Operation) (source : Source) (name : Option String) (words : List Int)
    (h : (((new predefined encoding file).performAll operations).assemble source name).result =
      .ok words) :
    (∀ (i : Nat) (word : Int), words[i]? = some word →
      0 ≤ word ∧ (word ≤ 2 ^ 32 - 1 ∨ 2 ^ 32 ≤ word ∧ word ≤ i)) ∧
    (words.length ≤ 2 ^ 32 →
      (∀ word ∈ words, Word.Fits word) ∧
      (∀ order, ∃ data, Image.ofWords order words = .ok data) ∧
      (∀ style, ∃ text, Listing.ofWords style words = .ok text)) := by
  have hset := (isSet_new predefined encoding file).performAll operations
  have hvalue : ∀ (i : Nat) (word : Int), words[i]? = some word → IsValueAfter i word :=
    fun i _ hi => isValueAfter_of_assemble hset.fits h i hi
  constructor
  · intro i word hi
    by_cases hfits : Word.Fits word
    · exact ⟨hfits.1, .inl hfits.2⟩
    · obtain ⟨hlarge, hle⟩ := (hvalue i word hi).le_of_not_fits hfits
      exact ⟨by omega, .inr ⟨hlarge, hle⟩⟩
  · intro hlength
    have hfits : ∀ word ∈ words, Word.Fits word := by
      intro word hm
      obtain ⟨i, hlt, rfl⟩ := List.getElem_of_mem hm
      exact (hvalue i _ (List.getElem?_eq_getElem hlt)).fits (by omega)
    exact ⟨hfits, fun order => ⟨_, (Image.ofWords_eq_ok_iff ..).2 ⟨hfits, rfl⟩⟩,
      fun style => ⟨_, (Listing.ofWords_eq_ok_iff ..).2 ⟨hfits, rfl⟩⟩⟩

/-- A reference to a label that is predefined with an address far below zero. -/
theorem words_fit_of_assemble_negative :
    let assembler := (new .empty "utf-8" "<input>").performAll [.defineLabel ['a'] (-10 ^ 30)]
    let assembly := assembler.assemble (.text ['&', 'a']) none
    assembly.result = .ok [Word.wrap (-10 ^ 30)] ∧
      (∀ word ∈ [Word.wrap (-10 ^ 30)], Word.Fits word) ∧
      ∃ data, Image.ofWords .big [Word.wrap (-10 ^ 30)] = .ok data := by
  intro assembler assembly
  have hresult : assembly.result = .ok [Word.wrap (-10 ^ 30)] := by decide +kernel
  have hfit := (words_fit_of_assemble .empty "utf-8" "<input>" [.defineLabel ['a'] (-10 ^ 30)]
    (.text ['&', 'a']) none _ hresult).2 (by decide)
  exact ⟨hresult, hfit.1, hfit.2.1 .big⟩

/-! ## A program that is too long -/

/-- Some ones, and behind them a label with a reference to it. -/
def onesThenLabel (count : Nat) : List Char :=
  (List.replicate count ['1', ' ']).flatten ++ ['a', ':', ' ', '&', 'a']

theorem wordsOf_onesThenLabel (count : Nat) :
    wordsOf (onesThenLabel count) = List.replicate count ['1'] ++ [['a', ':'], ['&', 'a']] := by
  induction count with
  | zero => rfl
  | succ count ih =>
      rw [List.replicate_succ, List.cons_append, ← ih]
      rfl

/-- The ones stand for one, and the reference for the number of the label's word. -/
theorem translatesFrom_ones {before : List (List Char)} (h : ['a', ':'] ∉ before) (count : Nat)
    {address : Int} (ha : address = before.length + count + 1) :
    TranslatesFrom .empty before (List.replicate count ['1'] ++ [['a', ':'], ['&', 'a']])
      (List.replicate count 1 ++ [0, address]) := by
  induction count generalizing before with
  | zero =>
      have hname : IsName ['a'] := by simp [IsName]
      have hdefined : (before ++ [['a', ':']])[before.length]? = some (['a'] ++ [':']) := by simp
      have hdefinition : Means .empty before ['a', ':'] 0 := .definition hname (by decide) h
      have hreference : Means .empty (before ++ [['a', ':']]) ['&', 'a'] address :=
        ha ▸ .defined hname hdefined
      exact translatesFrom_cons_iff.2 ⟨0, [address], rfl, hdefinition,
        translatesFrom_cons_iff.2 ⟨address, [], rfl, hreference, translatesFrom_nil_iff.2 rfl⟩⟩
  | succ count ih =>
      have hone : IsLiteral ['1'] := ⟨by decide, by simp, by decide, by decide⟩
      have hafter : ['a', ':'] ∉ before ++ [['1']] := by simp [h]
      have hrest := ih hafter (by rw [ha, List.length_append, List.length_singleton]; omega)
      exact translatesFrom_cons_iff.2 ⟨1, _, rfl, .literal hone, hrest⟩

theorem result_onesThenLabel (count : Nat) :
    ((new .empty "utf-8" "<input>").assemble
      (.bytes (Encoding.Utf8.encode (onesThenLabel count))) none).result =
        .ok (List.replicate count 1 ++ [0, (count : Int) + 1]) := by
  have htranslates : Translates .empty (wordsOf (onesThenLabel count))
      (List.replicate count 1 ++ [0, (count : Int) + 1]) := by
    rw [Translates, wordsOf_onesThenLabel]
    exact translatesFrom_ones (by simp) count (by simp)
  exact (result_encode_eq_ok_iff (by rw [new_eq]) (by rw [new_eq])).2 htranslates

/-- Words of which one does not fit cannot be written. -/
theorem not_written_of_not_fits {word : Int} (hm : word ∈ words) (hw : ¬ Word.Fits word) :
    (∀ order, ¬ ∃ data, Image.ofWords order words = .ok data) ∧
      ∀ style, ¬ ∃ text, Listing.ofWords style words = .ok text :=
  ⟨fun _ ⟨_, hdata⟩ => hw (((Image.ofWords_eq_ok_iff ..).1 hdata).1 word hm),
    fun _ ⟨_, htext⟩ => hw (((Listing.ofWords_eq_ok_iff ..).1 htext).1 word hm)⟩

/-- A program of `2 ^ 32 + 1` words in which a label is the word number `2 ^ 32`, and the last word
refers to it: that word is no word of the machine, and the program cannot be written. -/
theorem words_misfit_of_ones :
    let assembly := (new .empty "utf-8" "<input>").assemble
      (.bytes (Encoding.Utf8.encode (onesThenLabel (2 ^ 32 - 1)))) none
    ∃ words, assembly.result = .ok words ∧ 2 ^ 32 ∈ words ∧ ¬ Word.Fits (2 ^ 32) ∧
      (∀ order, ¬ ∃ data, Image.ofWords order words = .ok data) ∧
      (∀ style, ¬ ∃ text, Listing.ofWords style words = .ok text) := by
  have hlast : ((2 ^ 32 - 1 : Nat) : Int) + 1 = 2 ^ 32 := by decide
  have hresult := result_onesThenLabel (2 ^ 32 - 1)
  rw [hlast] at hresult
  have hmisfit : ¬ Word.Fits (2 ^ 32) := by decide
  have hmem : 2 ^ 32 ∈ List.replicate (2 ^ 32 - 1) (1 : Int) ++ [0, 2 ^ 32] :=
    List.mem_append_right _ (List.mem_cons_of_mem _ List.mem_cons_self)
  exact ⟨_, hresult, hmem, hmisfit, not_written_of_not_fits hmem hmisfit⟩

end Assembler

end StackAssembler

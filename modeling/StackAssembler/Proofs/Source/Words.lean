import StackAssembler.Proofs.Encoding.Utf8
import StackAssembler.Source.Token

/-!
# The words of a text

`wordsOf` says which words a text has: it is cut at every space and at every newline.  `Cutting` is
the state of the cutter between two characters, and each character makes one step of it; what the
cutter hands out for a reading is determined by the characters read and by how the reading ends.

## Main definitions

* `wordsOf`: the words of a text.
* `Cutting`: how far a text has been cut.
* `Cutting.completed`: the words that a text completes.
* `Cutting.cut`: the words that are cut from a reading.
* `tokensOf`: all words of a text, with their places.
-/

namespace StackAssembler

/-- A character that ends a word. -/
def isBreak (c : Char) : Bool := c == ' ' || c == '\n'

/-- The words of a text: it is cut at every space and at every newline. -/
def wordsOf (text : List Char) : List (List Char) := text.splitOnP isBreak

/-! ## Words and breaks -/

/-- Words with breaks between them. -/
def weave (words : List (List Char)) (breaks : List Char) : List Char :=
  (words.zipWith (· ++ ·) (breaks.map ([·]) ++ [[]])).flatten

theorem weave_cons (word : List Char) (words : List (List Char)) (c : Char) (breaks : List Char) :
    weave (word :: words) (c :: breaks) = word ++ c :: weave words breaks := by
  simp [weave]

theorem weave_singleton (word : List Char) : weave [word] [] = word := by
  simp [weave]

/-- A text is its words with its breaks between them. -/
theorem weave_wordsOf (text : List Char) : weave (wordsOf text) (text.filter isBreak) = text :=
  List.splitOnP_spec text

/-- There is one word more than there are breaks. -/
theorem length_wordsOf (text : List Char) :
    (wordsOf text).length = (text.filter isBreak).length + 1 := by
  induction text with
  | nil => rfl
  | cons c text ih =>
      rw [wordsOf, List.splitOnP_cons_eq_if_modifyHead, ← wordsOf, List.filter_cons]
      split
      · rw [List.length_cons, List.length_cons, ih]
      · rw [List.length_modifyHead, ih]

/-- No break is in a word. -/
theorem unbroken_of_mem_wordsOf {text word : List Char} (h : word ∈ wordsOf text) :
    ∀ c ∈ word, isBreak c = false := by
  induction text generalizing word with
  | nil =>
      rw [wordsOf, List.splitOnP_nil, List.mem_singleton] at h
      rw [h]
      nofun
  | cons c text ih =>
      rw [wordsOf, List.splitOnP_cons_eq_if_modifyHead, ← wordsOf] at h
      split at h
      · rcases List.mem_cons.1 h with rfl | h
        · nofun
        · exact ih h
      · next hc =>
          obtain ⟨head, rest, hwords⟩ := List.exists_cons_of_length_eq_add_one (length_wordsOf text)
          rw [hwords, List.modifyHead_cons] at h
          rcases List.mem_cons.1 h with rfl | h
          · exact List.forall_mem_cons.2 ⟨by simpa using hc, ih (hwords ▸ List.mem_cons_self)⟩
          · exact ih (hwords ▸ List.mem_cons_of_mem head h)

/-- **Words without breaks are the words of the text that they make up.** -/
theorem wordsOf_weave {words : List (List Char)} {breaks : List Char}
    (hlength : words.length = breaks.length + 1)
    (hwords : ∀ word ∈ words, ∀ c ∈ word, isBreak c = false)
    (hbreaks : ∀ c ∈ breaks, isBreak c = true) : wordsOf (weave words breaks) = words := by
  induction breaks generalizing words with
  | nil =>
      obtain ⟨word, rfl⟩ := List.length_eq_one_iff.1 hlength
      rw [weave_singleton]
      exact List.splitOnP_eq_singleton (hwords word List.mem_cons_self)
  | cons c breaks ih =>
      obtain ⟨word, rest, rfl⟩ := List.exists_cons_of_length_eq_add_one hlength
      rw [List.forall_mem_cons] at hwords hbreaks
      rw [weave_cons, wordsOf, List.splitOnP_append_cons_of_forall_mem hwords.1 c hbreaks.1,
        ← wordsOf, ih (Nat.succ.inj hlength) hwords.2 hbreaks.2]

/-- The text with every word replaced, and with the same breaks. -/
def mapWords (change : List Char → List Char) (text : List Char) : List Char :=
  weave ((wordsOf text).map change) (text.filter isBreak)

theorem wordsOf_mapWords {change : List Char → List Char}
    (h : ∀ word, (∀ c ∈ word, isBreak c = false) → ∀ c ∈ change word, isBreak c = false)
    (text : List Char) : wordsOf (mapWords change text) = (wordsOf text).map change := by
  refine wordsOf_weave ?_ ?_ fun c hc => (List.mem_filter.1 hc).2
  · rw [List.length_map, length_wordsOf]
  · intro word hm
    obtain ⟨original, horiginal, rfl⟩ := List.mem_map.1 hm
    exact h original (unbroken_of_mem_wordsOf horiginal)

/-! ## Cutting -/

/-- How far a text has been cut. -/
structure Cutting where
  /-- Where the current word starts. -/
  start : Position
  /-- The place reached. -/
  here : Position
  /-- The characters of the current word, last first. -/
  word : List Char

namespace Cutting

/-- Before the first character. -/
def first : Cutting := ⟨.first, .first, []⟩

/-- The current word, should it end here. -/
def token (file : String) (cutting : Cutting) : Token :=
  ⟨cutting.word.reverse, .ofPosition file cutting.start⟩

/-- The place reached, as a place in a file. -/
def reached (file : String) (cutting : Cutting) : Location := .ofPosition file cutting.here

/-- One character further. -/
def next (cutting : Cutting) (c : Char) : Cutting :=
  if c = ' ' then ⟨cutting.here.nextColumn, cutting.here.nextColumn, []⟩
  else if c = '\n' then ⟨cutting.here.nextLine, cutting.here.nextLine, []⟩
  else ⟨cutting.start, cutting.here.nextColumn, c :: cutting.word⟩

/-- After all characters of a text. -/
def after (cutting : Cutting) (text : List Char) : Cutting := text.foldl next cutting

/-- The words that the characters of a text complete. -/
def completed (file : String) (cutting : Cutting) : List Char → List Token
  | [] => []
  | c :: text =>
    if isBreak c then cutting.token file :: completed file (cutting.next c) text
    else completed file (cutting.next c) text

@[simp] theorem after_cons (cutting : Cutting) (c : Char) (text : List Char) :
    cutting.after (c :: text) = (cutting.next c).after text := rfl

theorem after_append (cutting : Cutting) (text more : List Char) :
    cutting.after (text ++ more) = (cutting.after text).after more := by
  simp only [after, List.foldl_append]

/-- Words stay completed, whatever follows. -/
theorem completed_append (file : String) (cutting : Cutting) (text more : List Char) :
    completed file cutting (text ++ more) =
      completed file cutting text ++ completed file (cutting.after text) more := by
  induction text generalizing cutting with
  | nil => rfl
  | cons c text ih =>
      simp only [List.cons_append, completed, after_cons, ih]
      split <;> rfl

/-- A break completes the current word. -/
theorem completed_break (file : String) (cutting : Cutting) {c : Char} (h : isBreak c = true)
    (text : List Char) :
    completed file cutting (c :: text) =
      cutting.token file :: completed file (cutting.next c) text := by
  rw [completed, if_pos h]

theorem word_next {c : Char} (h : isBreak c = true) (cutting : Cutting) :
    (cutting.next c).word = [] := by
  simp only [isBreak, Bool.or_eq_true, beq_iff_eq] at h
  rcases h with rfl | rfl <;> rfl

/-- Where there is no break the current word goes on. -/
theorem next_unbroken {c : Char} (h : isBreak c = false) (cutting : Cutting) :
    cutting.next c = ⟨cutting.start, cutting.here.nextColumn, c :: cutting.word⟩ := by
  have hc : ¬ c = ' ' ∧ ¬ c = '\n' := by simpa [isBreak] using h
  rw [next, if_neg hc.1, if_neg hc.2]

/-- The texts of the words, with the one that the end of the text ends. -/
theorem texts_completed (file : String) (cutting : Cutting) (text : List Char) :
    (completed file cutting text).map Token.text ++ [(cutting.after text).word.reverse] =
      text.splitOnPPrepend isBreak cutting.word := by
  induction text generalizing cutting with
  | nil => rfl
  | cons c text ih =>
      by_cases hc : isBreak c = true
      · rw [completed_break file cutting hc, List.splitOnPPrepend_cons_pos hc, List.map_cons,
          List.cons_append, after_cons, ih, word_next hc]
        rfl
      · have hw : (cutting.next c).word = c :: cutting.word := by
          rw [next_unbroken (by simpa using hc)]
        rw [completed, if_neg hc, List.splitOnPPrepend_cons_neg (by simpa using hc), after_cons, ih,
          hw]

/-- A text without a break completes no word, and is all in the current one. -/
theorem after_unbroken (file : String) (cutting : Cutting) {text : List Char}
    (h : ∀ c ∈ text, isBreak c = false) :
    completed file cutting text = [] ∧ (cutting.after text).start = cutting.start ∧
      (cutting.after text).word = text.reverse ++ cutting.word := by
  induction text generalizing cutting with
  | nil => exact ⟨rfl, rfl, rfl⟩
  | cons c text ih =>
      rw [List.forall_mem_cons] at h
      obtain ⟨hnone, hstart, hword⟩ := ih (cutting.next c) h.2
      rw [next_unbroken h.1] at hnone hstart hword
      rw [completed, if_neg (by simp [h.1]), after_cons, next_unbroken h.1, hnone, hstart, hword,
        List.reverse_cons, List.append_assoc]
      exact ⟨rfl, rfl, rfl⟩

/-- All words of a text, the one that its end ends included. -/
def tokens (file : String) (cutting : Cutting) (text : List Char) : List Token :=
  completed file cutting text ++ [(cutting.after text).token file]

/-- A text without a break goes on the current word, which is then the only one. -/
theorem tokens_unbroken (file : String) (cutting : Cutting) {text : List Char}
    (h : ∀ c ∈ text, isBreak c = false) :
    cutting.tokens file text =
      [⟨cutting.word.reverse ++ text, .ofPosition file cutting.start⟩] := by
  obtain ⟨hnone, hstart, hword⟩ := cutting.after_unbroken file h
  rw [tokens, hnone, token, hstart, hword, List.reverse_append, List.reverse_reverse]
  rfl

theorem texts_tokens (file : String) {cutting : Cutting} (h : cutting.word = [])
    (text : List Char) : (cutting.tokens file text).map Token.text = wordsOf text := by
  rw [tokens, List.map_append]
  exact (texts_completed file cutting text).trans (by rw [h]; rfl)

/-- **A break ends a text as the end of the text does**: the words before it are those of the text,
and the words after it are those of what follows. -/
theorem tokens_append_break (file : String) (cutting : Cutting) (text : List Char) {c : Char}
    (h : isBreak c = true) (more : List Char) :
    cutting.tokens file (text ++ c :: more) =
      cutting.tokens file text ++ ((cutting.after text).next c).tokens file more := by
  rw [tokens, tokens, completed_append, completed_break file _ h, after_append, after_cons, tokens]
  simp only [List.append_assoc, List.cons_append, List.nil_append]

end Cutting

/-- The words of a text with their places. -/
def tokensOf (file : String) (text : List Char) : List Token := Cutting.first.tokens file text

@[simp] theorem texts_tokensOf (file : String) (text : List Char) :
    (tokensOf file text).map Token.text = wordsOf text :=
  Cutting.texts_tokens file rfl text

theorem length_tokensOf (file : String) (text : List Char) :
    (tokensOf file text).length = (wordsOf text).length := by
  rw [← texts_tokensOf file, List.length_map]

/-- A text without a break is a single word. -/
theorem tokensOf_unbroken (file : String) {text : List Char} (h : ∀ c ∈ text, isBreak c = false) :
    tokensOf file text = [⟨text, .ofPosition file .first⟩] :=
  Cutting.first.tokens_unbroken file h

namespace Cutting

/-- The words that are cut from a reading, from there on. -/
def cut (file : String) (cutting : Cutting) (reading : Reading Char) : Reading Token :=
  Token.cut file cutting.start cutting.here cutting.word (reading.map ([·]))

/-- A break hands out the current word. -/
theorem cut_break (file : String) (cutting : Cutting) {c : Char} (h : isBreak c = true) (k : Nat)
    (rest : Reading Char) :
    cutting.cut file (.next c k rest) =
      .next (cutting.token file) k ((cutting.next c).cut file rest) := by
  simp only [isBreak, Bool.or_eq_true, beq_iff_eq] at h
  rcases h with rfl | rfl <;> rfl

/-- Where there is no break nothing is handed out. -/
theorem cut_unbroken (file : String) (cutting : Cutting) {c : Char} (h : isBreak c = false)
    (k : Nat) (rest : Reading Char) :
    cutting.cut file (.next c k rest) = (cutting.next c).cut file rest := by
  have hc : ¬ c = ' ' ∧ ¬ c = '\n' := by simpa [isBreak] using h
  simp only [cut, Reading.map, Token.cut, next_unbroken h, List.cons.injEq, and_true, hc, if_false]
  rfl

/-- The words that are cut from a reading: those its characters complete and, unless the reading
fails, the one that its end ends. -/
theorem items_cut (file : String) (cutting : Cutting) (reading : Reading Char) :
    (cutting.cut file reading).items = cutting.completed file reading.items ++
      if reading.failure? = none then [(cutting.after reading.items).token file] else [] := by
  induction reading generalizing cutting with
  | done k => rfl
  | stopped failure k => rfl
  | next c k rest ih =>
      by_cases hc : isBreak c = true
      · rw [cut_break file cutting hc, Reading.items, ih, Reading.items,
          completed_break file cutting hc]
        rfl
      · rw [cut_unbroken file cutting (by simpa using hc), ih, Reading.items, completed, if_neg hc]
        rfl

/-- A failure of the reading is given the place reached. -/
theorem failure?_cut (file : String) (cutting : Cutting) (reading : Reading Char) :
    (cutting.cut file reading).failure? =
      reading.failure?.map (·.locate ((cutting.after reading.items).reached file)) := by
  induction reading generalizing cutting with
  | done k => rfl
  | stopped failure k => rfl
  | next c k rest ih =>
      by_cases hc : isBreak c = true
      · rw [cut_break file cutting hc]
        exact ih (cutting.next c)
      · rw [cut_unbroken file cutting (by simpa using hc)]
        exact ih (cutting.next c)

end Cutting

namespace Token

theorem items_ofCharacters (file : String) (reading : Reading Char) :
    (ofCharacters file reading).items = Cutting.first.completed file reading.items ++
      if reading.failure? = none then [(Cutting.first.after reading.items).token file] else [] :=
  Cutting.first.items_cut file reading

theorem failure?_ofCharacters (file : String) (reading : Reading Char) :
    (ofCharacters file reading).failure? =
      reading.failure?.map (·.locate ((Cutting.first.after reading.items).reached file)) :=
  Cutting.first.failure?_cut file reading

/-- A reading that does not fail has the words of the text read. -/
theorem items_ofCharacters_of_none (file : String) {reading : Reading Char}
    (h : reading.failure? = none) :
    (ofCharacters file reading).items = tokensOf file reading.items := by
  rw [items_ofCharacters, if_pos h, tokensOf, Cutting.tokens]

/-- A reading that fails has the words that the text read completes. -/
theorem items_ofCharacters_of_some (file : String) {reading : Reading Char} {failure : Failure}
    (h : reading.failure? = some failure) :
    (ofCharacters file reading).items = Cutting.first.completed file reading.items := by
  rw [items_ofCharacters, if_neg (by simp [h]), List.append_nil]

/-- The words that are read are words of the text that is read. -/
theorem items_ofCharacters_prefix (file : String) (reading : Reading Char) :
    (ofCharacters file reading).items <+: tokensOf file reading.items := by
  rw [items_ofCharacters, tokensOf, Cutting.tokens]
  split
  · exact List.prefix_refl _
  · rw [List.append_nil]
    exact List.prefix_append _ _

end Token

/-! ## The words of bytes -/

namespace Source

open Encoding

variable {name : String}

/-- The bytes of a text have the words of the text. -/
theorem tokens_encode (hname : ofName? name = some .utf8) (file : String) (text : List Char) :
    (tokens file name (Utf8.encode text)).items = tokensOf file text ∧
      (tokens file name (Utf8.encode text)).failure? = none := by
  obtain ⟨hi, hf⟩ := characters_encode hname text
  rw [tokens, Token.items_ofCharacters_of_none file hf, Token.failure?_ofCharacters, hi, hf]
  exact ⟨rfl, rfl⟩

/-- If words are read to the end then what follows a text is a text too. -/
theorem exists_text_of_tokens (hname : ofName? name = some .utf8) {file : String}
    (text : List Char) {bytes : List UInt8}
    (h : (tokens file name (Utf8.encode text ++ bytes)).failure? = none) :
    ∃ more, bytes = Utf8.encode more := by
  rw [tokens, Token.failure?_ofCharacters, Option.map_eq_none_iff, characters_of_utf8 hname,
    Utf8.encode, failure?_readFrom_append Utf8.form_reads] at h
  exact ⟨_, (readFrom_eq_text_iff Utf8.form_reads name _ bytes _).1 ⟨h, rfl⟩⟩

/-- The words that a text completes are read, whatever follows it. -/
theorem items_tokens_encode_append (hname : ofName? name = some .utf8) (file : String)
    (text : List Char) (bytes : List UInt8) :
    Cutting.first.completed file text <+:
      (tokens file name (Utf8.encode text ++ bytes)).items := by
  rw [tokens, Token.items_ofCharacters, characters_of_utf8 hname, Utf8.encode,
    items_readFrom_append Utf8.form_reads, Cutting.completed_append, List.append_assoc]
  exact List.prefix_append _ _

/-- If a break follows a text, all its words are read. -/
theorem items_tokens_encode_break (hname : ofName? name = some .utf8) (file : String)
    (text : List Char) {c : Char} (h : isBreak c = true) (bytes : List UInt8) :
    tokensOf file text <+:
      (tokens file name (Utf8.encode text ++ (Utf8.encode [c] ++ bytes))).items := by
  have hc : Utf8.encode text ++ (Utf8.encode [c] ++ bytes) =
      Utf8.encode (text ++ [c]) ++ bytes := by
    simp only [Utf8.encode, List.flatMap_append, List.append_assoc]
  have hp := items_tokens_encode_append hname file (text ++ [c]) bytes
  rw [Cutting.completed_append, Cutting.completed_break file _ h] at hp
  rw [hc]
  exact hp

/-- The words that the text before a break of the code completes are read, and then the break is
reported. -/
theorem tokens_encode_breaks (hname : ofName? name = some .utf8) (file : String)
    (text : List Char) {rest : List UInt8} {k : Nat} {flaw : Flaw}
    (hk : Utf8.form.Breaks rest k flaw) :
    (tokens file name (Utf8.encode text ++ rest)).items = Cutting.first.completed file text ∧
      (tokens file name (Utf8.encode text ++ rest)).failure? =
        some (.program ⟨.malformed name ((Utf8.encode text).length + k) flaw,
          some ((Cutting.first.after text).reached file)⟩) := by
  have hread := readFrom_text_breaks Utf8.form_reads name 0 text hk
  rw [← Utf8.encode] at hread
  obtain ⟨hi, hf⟩ := characters_of_utf8 hname (Utf8.encode text ++ rest) ▸ hread
  rw [tokens, Token.items_ofCharacters_of_some file hf, Token.failure?_ofCharacters, hi, hf,
    Nat.zero_add]
  exact ⟨rfl, rfl⟩

end Source

end StackAssembler

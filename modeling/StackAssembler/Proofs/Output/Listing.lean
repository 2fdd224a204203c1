import StackAssembler.Output.Writing
import StackAssembler.Proofs.Output.Image
import StackAssembler.Proofs.Source.Bytes
import StackAssembler.Proofs.Source.Lines
import StackAssembler.Proofs.Text.Integer
import Mathlib.Data.List.Forall2

/-!
# Reading a listing back

A listing is written of the same words as an image, and says the same: its lines are numerals of
the words, with one way only to write each of them.  A numeral is ASCII without a newline, so the
lines are found again, and a file with a listing has one byte for each of its characters.

## Main definitions

* `Listing.IsNumeral`: a line, without its newline, is the numeral of a word.
-/

namespace StackAssembler.Listing

/-- The numeral of a word in a style: in decimal without a needless zero in front, or `0x` and just
eight digits of base sixteen with capital letters. -/
inductive IsNumeral : Style → List Char → Int → Prop
  | text {digits : List Char} {word : Int} (nonempty : digits ≠ [])
      (isDigit : ∀ c ∈ digits, c.isDigit = true)
      (zero : digits.head? = some '0' → digits = ['0'])
      (denotes : Text.integer? .ten digits = some word) : IsNumeral .text digits word
  | hex {digits : List Char} {word : Int} (width : digits.length = 8)
      (upper : ∀ c ∈ digits, c.isDigit = true ∨ 'A' ≤ c ∧ c ≤ 'F')
      (denotes : Text.integer? .sixteen digits = some word) :
      IsNumeral .hex ('0' :: 'x' :: digits) word

/-! ## Numerals -/

/-- A style is meant by its name. -/
@[simp] theorem ofWordsNamed_name (style : Style) (words : List Int) :
    ofWordsNamed style.name words = ofWords style words := by
  cases style <;> rfl

/-- A word has at most ten digits, which are not too many to be read. -/
theorem length_decimal_of_fits {word : Int} (h : Word.Fits word) :
    (Text.decimal word.toNat).length ≤ 10 := by
  simp only [Word.Fits, Word.max] at h
  exact Text.length_decimal_le (by decide) (by omega)

theorem length_hexUpper_of_fits {word : Int} (h : Word.Fits word) :
    (Text.hexUpper 8 word.toNat).length = 8 := by
  simp only [Word.Fits, Word.max] at h
  rw [Text.hexUpper, List.length_map]
  exact Text.length_hex (by decide) (by omega)

/-- **What is written for a word is its numeral.** -/
theorem isNumeral_numeral (style : Style) {word : Int} (h : Word.Fits word) :
    IsNumeral style (numeral style word.toNat) word := by
  have hword : (word.toNat : Int) = word := Int.toNat_of_nonneg h.1
  cases style with
  | text =>
      have hlength := length_decimal_of_fits h
      refine .text (Text.decimal_ne_nil _) (fun c => Text.isDigit_of_mem_decimal) ?_ ?_
      · intro hhead
        rw [Text.eq_zero_of_head?_decimal hhead]
        rfl
      · have hlimit : (Text.decimal word.toNat).length ≤ Text.digitLimit :=
          hlength.trans (by decide)
        rw [numeral, Text.integer?_of_denotes (Text.decimal_ne_nil _) (Text.denotes_decimal _)
          fun _ => hlimit, hword]
  | hex =>
      have hlength := length_hexUpper_of_fits h
      refine .hex hlength (fun c => Text.upper_of_mem_hexUpper) ?_
      have hne : Text.hexUpper 8 word.toNat ≠ [] := List.ne_nil_of_length_eq_add_one hlength
      rw [Text.integer?_of_denotes hne (Text.denotes_hexUpper 8 _) (by simp), hword]

/-- Numerals are ASCII, and no blank is in them. -/
theorem IsNumeral.range {style : Style} {digits : List Char} {word : Int}
    (h : IsNumeral style digits word) : ∀ c ∈ digits, 0x30 ≤ c.toNat ∧ c.toNat < 0x80 := by
  have hdigit : ∀ c : Char, c.isDigit = true → 0x30 ≤ c.toNat ∧ c.toNat < 0x80 := by
    intro c hc
    have hrange : 0x30 ≤ c.toNat ∧ c.toNat ≤ 0x39 := Char.isDigit_iff_toNat.1 hc
    omega
  cases h with
  | text _ hdigits => exact fun c hc => hdigit c (hdigits c hc)
  | hex _ hdigits =>
      refine List.forall_mem_cons.2 ⟨by decide, List.forall_mem_cons.2 ⟨by decide, ?_⟩⟩
      intro c hc
      rcases hdigits c hc with hd | ⟨hlow, hhigh⟩
      · exact hdigit c hd
      · have hlow' : 0x41 ≤ c.toNat := hlow
        have hhigh' : c.toNat ≤ 0x46 := hhigh
        omega

/-- A numeral in base sixteen has ten characters. -/
theorem IsNumeral.length_hex {digits : List Char} {word : Int} (h : IsNumeral .hex digits word) :
    digits.length = 10 := by
  cases h with
  | hex hwidth => rw [List.length_cons, List.length_cons, hwidth]

/-- A listing is the numerals of its words, each with a newline after it. -/
theorem ofWords_eq_ok_iff_numerals (style : Style) (words : List Int) (text : List Char) :
    ofWords style words = .ok text ↔ (∀ word ∈ words, Word.Fits word) ∧
      text = (words.map fun word => numeral style word.toNat).flatMap (· ++ ['\n']) := by
  rw [ofWords_eq_ok_iff, List.flatMap_map]
  rfl

/-! ## Listings -/

variable {style : Style} {words : List Int} {text : List Char}

theorem forall₂_isNumeral (h : ∀ word ∈ words, Word.Fits word) :
    List.Forall₂ (IsNumeral style) (words.map fun word => numeral style word.toNat) words := by
  rw [List.forall₂_map_left_iff, List.forall₂_same]
  exact fun word hm => isNumeral_numeral style (h word hm)

/-- **The lines of a listing are numerals of its words.** -/
theorem splitOn_of_ofWords (h : ofWords style words = .ok text) :
    ∃ lines, text.splitOn '\n' = lines ++ [[]] ∧ List.Forall₂ (IsNumeral style) lines words := by
  obtain ⟨hfits, rfl⟩ := (ofWords_eq_ok_iff_numerals ..).1 h
  refine ⟨_, splitOn_lines ?_, forall₂_isNumeral hfits⟩
  intro line hm hnewline
  obtain ⟨word, hword, rfl⟩ := List.mem_map.1 hm
  have hrange := (isNumeral_numeral style (hfits word hword)).range '\n' hnewline
  exact absurd hrange.1 (by decide)

theorem ascii_of_ofWords (h : ofWords style words = .ok text) : ∀ c ∈ text, c.toNat < 0x80 := by
  obtain ⟨hfits, rfl⟩ := (ofWords_eq_ok_iff ..).1 h
  intro c hc
  obtain ⟨word, hword, hline⟩ := List.mem_flatMap.1 hc
  rcases List.mem_append.1 hline with hm | hm
  · exact ((isNumeral_numeral style (hfits word hword)).range c hm).2
  · rw [List.mem_singleton.1 hm]
    decide

/-- Every line in base sixteen has the same length. -/
theorem length_of_ofWords_hex (h : ofWords .hex words = .ok text) :
    text.length = 11 * words.length := by
  obtain ⟨hfits, rfl⟩ := (ofWords_eq_ok_iff ..).1 h
  refine Word.length_flatMap_of_forall fun word hm => ?_
  rw [line, List.length_append, (isNumeral_numeral .hex (hfits word hm)).length_hex]
  rfl

/-- A file with a listing has a byte for each character. -/
theorem writeListing_of_ofWords (h : ofWords style words = .ok text) (tree : Tree) (path : String) :
    tree.writeListing path style.name words =
      (tree.put path (Encoding.Utf8.encode text)).map fun tree =>
        ⟨tree, text.length, .listingWritten style.name text.length path⟩ := by
  have hlength : (Encoding.Utf8.encode text).length = text.length := by
    rw [Encoding.Utf8.encode_ascii (ascii_of_ofWords h), List.length_map]
  simp only [Tree.writeListing, ofWordsNamed_name, h, ← hlength, bind, Except.bind]
  cases tree.put path (Encoding.Utf8.encode text) <;> rfl

/-- A listing fails as every image of the words does. -/
theorem ofWords_eq_error_iff_image (order : ByteOrder) (failure : Failure) :
    ofWords style words = .error failure ↔ Image.ofWords order words = .error failure := by
  rw [ofWords_eq_error_iff, Image.ofWords_eq_error_iff]

/-- **A listing says what an image of the same words says.**  It fails on the same numbers in the
same way, because one of them is no word.  If there is an image then there is a listing, which is
ASCII, and its lines are the numerals of the words, one for each; in base sixteen it has eleven
characters for each word.  The file that is written has as many bytes as the listing has
characters. -/
theorem ofWordsNamed_denotes (style : Style) (words : List Int) (order : ByteOrder) :
    (∀ failure, ofWordsNamed style.name words = .error failure ↔
      Image.ofWordsNamed order.name words = .error failure) ∧
    (∀ failure, ofWordsNamed style.name words = .error failure →
      ∃ word ∈ words, failure = .internal (.notAWord word)) ∧
    ∀ data, Image.ofWordsNamed order.name words = .ok data → ∃ text,
      ofWordsNamed style.name words = .ok text ∧
      (∀ c ∈ text, c.toNat < 0x80) ∧
      (∃ lines, text.splitOn '\n' = lines ++ [[]] ∧ List.Forall₂ (IsNumeral style) lines words) ∧
      (style = .hex → text.length = 11 * words.length) ∧
      ∀ (tree : Tree) (path : String), tree.writeListing path style.name words =
        (tree.put path (Encoding.Utf8.encode text)).map fun tree =>
          ⟨tree, text.length, .listingWritten style.name text.length path⟩ := by
  simp only [ofWordsNamed_name, Image.ofWordsNamed_name]
  refine ⟨fun failure => ofWords_eq_error_iff_image order failure, ?_, fun data hdata => ?_⟩
  · intro failure hfailure
    obtain ⟨word, hword, rfl⟩ := (ofWords_eq_error_iff ..).1 hfailure
    exact ⟨word, List.mem_of_find?_eq_some hword, rfl⟩
  · have hfits := ((Image.ofWords_eq_ok_iff ..).1 hdata).1
    have htext := (ofWords_eq_ok_iff style words _).2 ⟨hfits, rfl⟩
    refine ⟨_, htext, ascii_of_ofWords htext, splitOn_of_ofWords htext, ?_,
      writeListing_of_ofWords htext⟩
    rintro rfl
    exact length_of_ofWords_hex htext

/-- The least and the largest word in base sixteen, and a number that is no word. -/
theorem ofWordsNamed_denotes_extremes :
    let text := "0x00000000\n0xFFFFFFFF\n".toList
    ofWordsNamed "hex" [0, 2 ^ 32 - 1] = .ok text ∧
      (∃ lines, text.splitOn '\n' = lines ++ [[]] ∧
        List.Forall₂ (IsNumeral .hex) lines [0, 2 ^ 32 - 1]) ∧
      Image.ofWordsNamed "big" [0, 2 ^ 32] = .error (.internal (.notAWord (2 ^ 32))) ∧
      ofWordsNamed "text" [0, 2 ^ 32] = .error (.internal (.notAWord (2 ^ 32))) := by
  intro text
  have hhex : ofWordsNamed "hex" [0, 2 ^ 32 - 1] = .ok text := by decide +kernel
  have hdata : Image.ofWordsNamed "big" [0, 2 ^ 32 - 1] =
      .ok [0, 0, 0, 0, 0xff, 0xff, 0xff, 0xff] := by
    decide +kernel
  have himage : Image.ofWordsNamed "big" [0, 2 ^ 32] =
      .error (.internal (.notAWord (2 ^ 32))) := by
    decide +kernel
  obtain ⟨-, -, hwritten⟩ := ofWordsNamed_denotes .hex [0, 2 ^ 32 - 1] .big
  obtain ⟨listed, hlisted, -, hlines, -⟩ := hwritten _ hdata
  obtain rfl : text = listed := Except.ok.inj (hhex.symm.trans hlisted)
  exact ⟨hhex, hlines, himage, ((ofWordsNamed_denotes .text [0, 2 ^ 32] .big).1 _).2 himage⟩

end StackAssembler.Listing

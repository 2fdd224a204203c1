import StackAssembler.Proofs.Output.Listing
import StackAssembler.Proofs.Program.Literal
import StackAssembler.Proofs.Program.Range

/-!
# Listings as programs

A decimal listing without its last newline is a program: a line of it is a literal, and stands for
the word that the line was written for.  Literals are signed words, though.  So a listing is
assembled into its words if none of them exceeds the largest literal, and otherwise the first that
does is reported, at its line.

## Main definitions

* `Listing.program`: a decimal listing without its last newline.
-/

namespace StackAssembler

namespace Listing

/-- A program that has words as literals, one on each line. -/
def program (words : List Int) : List Char :=
  joinLines (words.map fun word => Text.decimal word.toNat)

variable {words : List Int}

/-- It is the listing of the words, but for the last newline. -/
theorem ofWords_program (hne : words ≠ []) (h : ∀ word ∈ words, Word.Fits word) :
    ofWords .text words = .ok (program words ++ ['\n']) := by
  rw [ofWords_eq_ok_iff_numerals, program, joinLines_concat (by simpa using hne)]
  exact ⟨h, rfl⟩

/-- Numerals have no breaks in them. -/
theorem unbroken_of_mem_decimals :
    ∀ line ∈ words.map fun word => Text.decimal word.toNat, ∀ c ∈ line, isBreak c = false := by
  intro line hm
  obtain ⟨word, -, rfl⟩ := List.mem_map.1 hm
  exact not_isBreak_of_isDigit fun c => Text.isDigit_of_mem_decimal

/-- The words of the program are the numerals. -/
theorem texts_tokensOf_program (file : String) (hne : words ≠ []) :
    (tokensOf file (program words)).map Token.text =
      words.map fun word => Text.decimal word.toNat := by
  rw [texts_tokensOf, program, wordsOf_joinLines (by simpa using hne) unbroken_of_mem_decimals]

/-- Each of them stands at the beginning of the line that was written for it. -/
theorem getElem?_tokensOf_program (file : String) {i : Nat} {word : Int}
    (h : words[i]? = some word) : (tokensOf file (program words))[i]? =
      some ⟨Text.decimal word.toNat, ⟨file, i + 1, 1⟩⟩ := by
  have hne : words.map (fun word => Text.decimal word.toNat) ≠ [] :=
    List.ne_nil_of_mem (List.mem_map_of_mem (List.mem_of_getElem? h))
  rw [program, getElem?_tokensOf_joinLines file hne unbroken_of_mem_decimals, List.getElem?_map, h]
  rfl

/-- A listing is a program in every encoding. -/
theorem readsAs_program {name : String} {encoding : Encoding}
    (hname : Encoding.ofName? name = some encoding) (hne : words ≠ [])
    (h : ∀ word ∈ words, Word.Fits word) :
    (Source.text (program words)).ReadsAs name (program words) := by
  have hlisting := ofWords_program hne h
  have hascii : ∀ c ∈ program words, c.toNat < 0x80 :=
    fun c hc => ascii_of_ofWords hlisting c (List.mem_append_left _ hc)
  have hplain : '\\' ∉ program words := by
    intro hm
    have hmem := List.mem_append_left ['\n'] hm
    rw [program, joinLines_concat (by simpa using hne), List.mem_flatMap] at hmem
    obtain ⟨line, hline, hc⟩ := hmem
    obtain ⟨word, -, rfl⟩ := List.mem_map.1 hline
    rcases List.mem_append.1 hc with hdigit | hnewline
    · exact notMem_of_not_isDigit (fun c => Text.isDigit_of_mem_decimal) rfl hdigit
    · exact absurd (List.mem_singleton.1 hnewline) (by decide)
  exact Source.readsAs_ascii hname hascii hplain

end Listing

/-! ## Literals of words -/

namespace Scope

/-- The numeral of a word is a literal, unless the word is too large. -/
theorem step_of_decimal (scope : Scope) {token : Token} {word : Int}
    (htext : token.text = Text.decimal word.toNat) (h : Word.Fits word) :
    scope.step token =
      if word ≤ 2 ^ 31 - 1 then .ok (word, scope)
      else .error (.program
        ⟨.badLiteral (Text.decimal word.toNat) .outOfRange, some token.location⟩) := by
  have hvalue : literalValue token.text = word.toNat := by
    rw [htext]
    exact Nat.ofDigitChars_ten_toDigits
  have hword : (word.toNat : Int) = word := Int.toNat_of_nonneg h.1
  have hlength := Listing.length_decimal_of_fits h
  have hne : token.text ≠ [] := htext ▸ Text.decimal_ne_nil _
  have hd : ∀ c ∈ token.text, c.isDigit = true := by
    rw [htext]
    exact fun c => Text.isDigit_of_mem_decimal
  have hle : word.toNat ≤ 2 ^ 31 - 1 ↔ word ≤ 2 ^ 31 - 1 := by omega
  rw [step_of_digits hne hd, if_neg (by rw [htext]; omega), hvalue, hword, htext]
  simp only [hle]

/-- Numerals of words that are not too large are taken for them. -/
theorem exists_run_of_decimals (scope : Scope) {tokens : List Token} {words : List Int}
    (htexts : tokens.map Token.text = words.map fun word => Text.decimal word.toNat)
    (h : ∀ word ∈ words, 0 ≤ word ∧ word ≤ 2 ^ 31 - 1) :
    ∃ later, scope.run tokens = .ok (words, later) := by
  induction words generalizing scope tokens with
  | nil =>
      rw [List.map_nil, List.map_eq_nil_iff] at htexts
      rw [htexts]
      exact ⟨scope, rfl⟩
  | cons word words ih =>
      rw [List.map_cons, List.map_eq_cons_iff] at htexts
      obtain ⟨token, rest, rfl, htext, hrest⟩ := htexts
      rw [List.forall_mem_cons] at h
      have hfits : Word.Fits word := by
        rw [Word.fits_iff]
        omega
      have hstep := scope.step_of_decimal htext hfits
      rw [if_pos h.1.2] at hstep
      obtain ⟨later, hrun⟩ := ih scope.advance hrest h.2
      exact ⟨later, by rw [run_cons_of_ok hstep, hrun]; rfl⟩

/-- **The first word that is too large is the one that fails.** -/
theorem failsAt_of_decimals (scope : Scope) {tokens : List Token} {words : List Int}
    (htexts : tokens.map Token.text = words.map fun word => Text.decimal word.toNat)
    (h : ∀ word ∈ words, Word.Fits word) {i : Nat} {token : Token} {word : Int}
    (htoken : tokens[i]? = some token) (hword : words[i]? = some word)
    (hlarge : 2 ^ 31 - 1 < word) (hbefore : ∀ earlier ∈ words.take i, earlier ≤ 2 ^ 31 - 1) :
    scope.FailsAt tokens i
      (.program ⟨.badLiteral (Text.decimal word.toNat) .outOfRange, some token.location⟩) := by
  have htaken : (tokens.take i).map Token.text =
      (words.take i).map fun word => Text.decimal word.toNat := by
    rw [List.map_take, htexts, List.map_take]
  have hrange : ∀ earlier ∈ words.take i, 0 ≤ earlier ∧ earlier ≤ 2 ^ 31 - 1 :=
    fun earlier hm => ⟨(h earlier (List.mem_of_mem_take hm)).1, hbefore earlier hm⟩
  obtain ⟨later, hrun⟩ := scope.exists_run_of_decimals htaken hrange
  have htext : token.text = Text.decimal word.toNat := by
    have hboth := congrArg (·[i]?) htexts
    simpa [htoken, hword] using hboth
  have hstep := later.step_of_decimal htext (h word (List.mem_of_getElem? hword))
  rw [if_neg (by omega)] at hstep
  exact ⟨token, _, later, htoken, hrun, hstep⟩

end Scope

namespace Assembler

variable {assembler : Assembler} {source : Source} {words : List Int}

/-- Words that are not too large are assembled again. -/
theorem result_of_program (hread : source.ReadsAs assembler.encoding (Listing.program words))
    (hne : words ≠ []) (h : ∀ word ∈ words, 0 ≤ word ∧ word ≤ 2 ^ 31 - 1) (name : Option String) :
    (assembler.assemble source name).result = .ok words := by
  obtain ⟨bytes, hbytes, houtcome⟩ := outcome_of_readsAs hread name
  have htexts := Listing.texts_tokensOf_program (name.getD assembler.file) hne
  obtain ⟨later, hrun⟩ := (Scope.start assembler.predefined).exists_run_of_decimals htexts h
  rw [hbytes, result_assembleBytes, houtcome, hrun]
  rfl

/-- **The first word that is too large is reported at its line.** -/
theorem result_of_program_of_lt
    (hread : source.ReadsAs assembler.encoding (Listing.program words))
    (h : ∀ word ∈ words, Word.Fits word) {i : Nat} {word : Int} (hword : words[i]? = some word)
    (hlarge : 2 ^ 31 - 1 < word) (hbefore : ∀ earlier ∈ words.take i, earlier ≤ 2 ^ 31 - 1)
    (name : Option String) :
    (assembler.assemble source name).result =
      .error (.program ⟨.badLiteral (Text.decimal word.toNat) .outOfRange,
        some ⟨name.getD assembler.file, i + 1, 1⟩⟩) := by
  obtain ⟨bytes, hbytes, houtcome⟩ := outcome_of_readsAs hread name
  have hne : words ≠ [] := List.ne_nil_of_mem (List.mem_of_getElem? hword)
  have htexts := Listing.texts_tokensOf_program (name.getD assembler.file) hne
  have htoken := Listing.getElem?_tokensOf_program (name.getD assembler.file) hword
  have hfails := (Scope.start assembler.predefined).failsAt_of_decimals htexts h htoken hword
    hlarge hbefore
  have hrun := (Scope.run_eq_error_iff ..).2 ⟨i, hfails⟩
  rw [hbytes, result_assembleBytes, houtcome, hrun]
  rfl

/-- A program that is assembled has a word at least. -/
theorem ne_nil_of_assemble {name : Option String}
    (h : (assembler.assemble source name).result = .ok words) : words ≠ [] := by
  rw [assemble] at h
  split at h
  · next bytes hbytes =>
      obtain ⟨later, houtcome⟩ := (result_eq_ok_iff words).1 h
      obtain ⟨hrun, hread⟩ := (Scope.outcome_eq_ok_iff ..).1 houtcome
      rw [Source.tokens, Token.failure?_ofCharacters, Option.map_eq_none_iff] at hread
      rw [Source.tokens, Token.items_ofCharacters_of_none _ hread] at hrun
      have hlength := (Scope.run_grows hrun).1
      rw [length_tokensOf, length_wordsOf] at hlength
      exact List.ne_nil_of_length_eq_add_one hlength
  · cases h

/-- What is no word is too large for a literal. -/
theorem fits_of_assemble (hp : ∀ entry ∈ assembler.predefined.entries, Word.Fits entry.2)
    {name : Option String} (h : (assembler.assemble source name).result = .ok words)
    (hsmall : ∀ word ∈ words, word ≤ 2 ^ 31 - 1) : ∀ word ∈ words, Word.Fits word := by
  intro word hm
  obtain ⟨i, hi⟩ := List.getElem?_of_mem hm
  by_contra hmisfit
  have hlarge := (isValueAfter_of_assemble hp h i hi).le_of_not_fits hmisfit
  have hword := hsmall word hm
  omega

/-- **A decimal listing is a program for its own words.**  Without its last newline a listing of
words is a program in every encoding.  It is assembled into the words if none of them exceeds the
largest literal, and the first that does is reported at its line otherwise.  So a program whose
words are no larger is assembled again from its listing. -/
theorem assemble_listing :
    (∀ words : List Int, words ≠ [] → (∀ word ∈ words, 0 ≤ word ∧ word ≤ 2 ^ 32 - 1) →
      ∃ program, Listing.ofWordsNamed "text" words = .ok (program ++ ['\n']) ∧
      ∀ (assembler : Assembler) (name : Option String),
        (∀ encoding, Encoding.ofName? assembler.encoding = some encoding →
          (Source.text program).ReadsAs assembler.encoding program) ∧
        ∀ source : Source, source.ReadsAs assembler.encoding program →
          ((∀ word ∈ words, word ≤ 2 ^ 31 - 1) →
            (assembler.assemble source name).result = .ok words) ∧
          ∀ (i : Nat) (word : Int), words[i]? = some word → 2 ^ 31 - 1 < word →
            (∀ earlier ∈ words.take i, earlier ≤ 2 ^ 31 - 1) →
            (assembler.assemble source name).result =
              .error (.program ⟨.badLiteral (Text.decimal word.toNat) .outOfRange,
                some ⟨name.getD assembler.file, i + 1, 1⟩⟩)) ∧
    ∀ (predefined : LabelTable) (encoding file : String) (operations : List Operation)
      (source : Source) (name : Option String) (words : List Int),
      (((new predefined encoding file).performAll operations).assemble source name).result =
        .ok words → (∀ word ∈ words, word ≤ 2 ^ 31 - 1) →
      ∃ program, Listing.ofWordsNamed "text" words = .ok (program ++ ['\n']) ∧
        ∀ (assembler : Assembler) (source : Source) (name : Option String),
          source.ReadsAs assembler.encoding program →
          (assembler.assemble source name).result = .ok words := by
  constructor
  · intro words hne hrange
    have hfits : ∀ word ∈ words, Word.Fits word :=
      fun word hm => (Word.fits_iff word).2 (hrange word hm)
    have hlisting := Listing.ofWords_program hne hfits
    rw [← Listing.ofWordsNamed_name] at hlisting
    refine ⟨_, hlisting, fun assembler name => ?_⟩
    refine ⟨fun _ hname => Listing.readsAs_program hname hne hfits, fun source hread => ⟨?_, ?_⟩⟩
    · intro hsmall
      exact result_of_program hread hne (fun word hm => ⟨(hfits word hm).1, hsmall word hm⟩) name
    · intro i word hword hlarge hbefore
      exact result_of_program_of_lt hread hfits hword hlarge hbefore name
  · intro predefined encoding file operations source name words hresult hsmall
    have hne := ne_nil_of_assemble hresult
    have hset := (isSet_new predefined encoding file).performAll operations
    have hfits := fits_of_assemble hset.fits hresult hsmall
    have hlisting := Listing.ofWords_program hne hfits
    rw [← Listing.ofWordsNamed_name] at hlisting
    refine ⟨_, hlisting, fun assembler source name hread => ?_⟩
    exact result_of_program hread hne (fun word hm => ⟨(hfits word hm).1, hsmall word hm⟩) name

/-- The largest literal and the number after it, and the words of a program that refers to its own
label. -/
theorem assemble_listing_bounds :
    let large := "2147483647\n2147483648".toList
    let small := "0\n2147483647\n1".toList
    ((new .empty "utf-16" "a.sm").assemble (.text large) none).result =
        .error (.program ⟨.badLiteral "2147483648".toList .outOfRange, some ⟨"a.sm", 2, 1⟩⟩) ∧
      ((new .empty "utf-8" "a.sm").assemble (.text "a: 2147483647 &a".toList) none).result =
        .ok [0, 2147483647, 1] ∧
      ((new .empty "utf-8" "a.sm").assemble (.text small) none).result =
        .ok [0, 2147483647, 1] := by
  intro large small
  obtain ⟨hlisted, hcompiled⟩ := assemble_listing
  have hsource : ((new .empty "utf-8" "a.sm").assemble
      (.text "a: 2147483647 &a".toList) none).result = .ok [0, 2147483647, 1] := by
    decide +kernel
  refine ⟨?_, hsource, ?_⟩
  · have hlisting : Listing.ofWordsNamed "text" [2147483647, 2147483648] =
        .ok (large ++ ['\n']) := by decide +kernel
    have hname : Encoding.ofName? "utf-16" = some .markedUtf16 := by decide +kernel
    obtain ⟨program, hprogram, hreads⟩ := hlisted [2147483647, 2147483648] (by decide) (by decide)
    obtain rfl : large = program :=
      List.append_cancel_right (Except.ok.inj (hlisting.symm.trans hprogram))
    obtain ⟨hread, hresult⟩ := hreads (new .empty "utf-16" "a.sm") none
    exact (hresult _ (hread _ hname)).2 1 2147483648 rfl (by decide) (by decide)
  · have hlisting : Listing.ofWordsNamed "text" [0, 2147483647, 1] = .ok (small ++ ['\n']) := by
      decide +kernel
    have hname : Encoding.ofName? "utf-8" = some .utf8 := by decide +kernel
    obtain ⟨program, hprogram, hresult⟩ :=
      hcompiled .empty "utf-8" "a.sm" [] _ none _ hsource (by decide)
    obtain rfl : small = program :=
      List.append_cancel_right (Except.ok.inj (hlisting.symm.trans hprogram))
    exact hresult _ _ none (Source.readsAs_utf8 hname small).1

end Assembler

end StackAssembler

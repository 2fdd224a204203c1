import StackAssembler.Proofs.Encoding.Written
import StackAssembler.Proofs.Program.Run
import StackAssembler.Proofs.Source.Words

/-!
# Programs given as text

A program that is given as text is written in the encoding in force and read again, so its words
are those of its characters if the text is read back as it was written.  Then the encoding has no
part in what the program comes to.
-/

namespace StackAssembler

open Encoding

namespace Source

/-- A reader of the encoding of a name takes no backslash of the text for the beginning of an
escape. -/
def Legible (encoding : String) (text : List Char) : Prop :=
  ofName? encoding = some .escaped → Escaped.IsPlain text

variable {encoding : String} {text : List Char} {data : List UInt8}

/-- A text that has been written is written in the encoding of the name. -/
theorem exists_scheme_of_toBytes (h : (Source.text text).toBytes encoding = .ok data) :
    ∃ scheme, ofName? encoding = some scheme ∧ scheme.encode text = .ok data := by
  simp only [toBytes, Source.scheme] at h
  cases hname : ofName? encoding with
  | none =>
      rw [hname] at h
      cases h
  | some scheme =>
      rw [hname] at h
      refine ⟨scheme, rfl, ?_⟩
      cases hencode : scheme.encode text with
      | ok bytes =>
          simp only [hencode] at h
          cases h
          rfl
      | error unwritable =>
          simp only [hencode] at h
          cases h

/-- A text is read back if and only if it is legible. -/
theorem characters_toBytes_iff (h : (Source.text text).toBytes encoding = .ok data) :
    (characters encoding data).failure? = none ∧ (characters encoding data).items = text ↔
      Legible encoding text := by
  obtain ⟨scheme, hname, hencode⟩ := exists_scheme_of_toBytes h
  rw [characters_of_name hname, readFrom_encode_iff encoding hencode, Legible, hname,
    Option.some_inj]

/-- The words of a legible text are those of its characters. -/
theorem tokens_toBytes (h : (Source.text text).toBytes encoding = .ok data)
    (hlegible : Legible encoding text) (file : String) :
    (tokens file encoding data).failure? = none ∧
      (tokens file encoding data).items = tokensOf file text := by
  obtain ⟨hok, hitems⟩ := (characters_toBytes_iff h).2 hlegible
  constructor
  · rw [tokens, Token.failure?_ofCharacters, hok]
    rfl
  · rw [tokens, Token.items_ofCharacters_of_none file hok, hitems]

/-! ## Programs that are a text -/

/-- The program is the text in the encoding of a name: its bytes are read as the text. -/
def ReadsAs (source : Source) (encoding : String) (text : List Char) : Prop :=
  ∃ data, source.toBytes encoding = .ok data ∧
    (characters encoding data).failure? = none ∧ (characters encoding data).items = text

/-- A legible text that can be written is what it is read as. -/
theorem readsAs_text (h : (Source.text text).toBytes encoding = .ok data)
    (hlegible : Legible encoding text) : (Source.text text).ReadsAs encoding text :=
  ⟨data, h, (characters_toBytes_iff h).2 hlegible⟩

/-- In UTF-8 every text is a program, and so are its bytes. -/
theorem readsAs_utf8 (hname : ofName? encoding = some .utf8) (text : List Char) :
    (Source.text text).ReadsAs encoding text ∧
      (Source.bytes (Utf8.encode text)).ReadsAs encoding text := by
  have hread := characters_encode hname text
  have hbytes : (Source.text text).toBytes encoding = .ok (Utf8.encode text) := by
    simp only [toBytes, Source.scheme, hname, Encoding.encode]
  exact ⟨⟨_, hbytes, hread.2, hread.1⟩, ⟨_, rfl, hread.2, hread.1⟩⟩

/-- Without a backslash, a text of ASCII is a program in every encoding. -/
theorem readsAs_ascii {scheme : Encoding} (hname : ofName? encoding = some scheme)
    (hascii : ∀ c ∈ text, c.toNat < 0x80) (hplain : '\\' ∉ text) :
    (Source.text text).ReadsAs encoding text := by
  obtain ⟨data, hdata⟩ := exists_encode_of_ascii scheme hascii
  have hbytes : (Source.text text).toBytes encoding = .ok data := by
    simp only [toBytes, Source.scheme, hname, hdata]
  exact readsAs_text hbytes fun _ => Escaped.isPlain_of_notMem hplain

end Source

namespace Assembler

/-- Two assemblers for which programs have the same outcome leave the same things defined. -/
theorem assembleBytes_congr {first second : Assembler} {bytes other : List UInt8} {file : String}
    (h : first.outcome bytes file = second.outcome other file) :
    (first.assembleBytes bytes file).result = (second.assembleBytes other file).result ∧
      (first.assembleBytes bytes file).assembler.scope =
        (second.assembleBytes other file).assembler.scope := by
  cases ho : second.outcome other file with
  | error failure =>
      obtain ⟨hresult, hassembler⟩ := assembleBytes_of_error (h.trans ho)
      obtain ⟨hresult', hassembler'⟩ := assembleBytes_of_error ho
      rw [hresult, hassembler, hresult', hassembler']
      exact ⟨rfl, rfl⟩
  | ok result =>
      obtain ⟨words, scope⟩ := result
      obtain ⟨hresult, hassembler⟩ := assembleBytes_of_ok (h.trans ho)
      obtain ⟨hresult', hassembler'⟩ := assembleBytes_of_ok ho
      rw [hresult, hassembler, hresult', hassembler']
      exact ⟨rfl, rfl⟩

/-- What comes of a program that is a text is what comes of the words of the text. -/
theorem outcome_of_readsAs {assembler : Assembler} {source : Source} {text : List Char}
    (h : source.ReadsAs assembler.encoding text) (name : Option String) :
    let file := name.getD assembler.file
    ∃ bytes, assembler.assemble source name = assembler.assembleBytes bytes file ∧
      assembler.outcome bytes file =
        (Scope.start assembler.predefined).run (tokensOf file text) := by
  intro file
  obtain ⟨bytes, hbytes, hok, hitems⟩ := h
  refine ⟨bytes, by simp only [assemble, hbytes, file], ?_⟩
  have hread : (Source.tokens file assembler.encoding bytes).failure? = none := by
    rw [Source.tokens, Token.failure?_ofCharacters, hok]
    rfl
  rw [outcome, Scope.outcome_of_none hread, Source.tokens,
    Token.items_ofCharacters_of_none file hok, hitems]

end Assembler

namespace Source

/-- **A text means its characters, in every encoding in which it is legible.**  Its words are those
of its characters, and a program comes to the same in any two such encodings.  In an encoding in
which a text can be written and is not legible, other characters are read. -/
theorem text_means_characters (encoding : String) (text : List Char) (data : List UInt8)
    (h : (Source.text text).toBytes encoding = .ok data) :
    ((characters encoding data).failure? = none ∧ (characters encoding data).items = text ↔
      Legible encoding text) ∧
    (Legible encoding text →
      (∀ file, (tokens file encoding data).failure? = none ∧
        (tokens file encoding data).items =
          (Token.ofCharacters file (Reading.ofList none text)).items) ∧
      ∀ other otherData, (Source.text text).toBytes other = .ok otherData → Legible other text →
        ∀ (assembler : Assembler) (file : Option String),
          let first := { assembler with encoding := encoding }.assemble (.text text) file
          let second := { assembler with encoding := other }.assemble (.text text) file
          first.result = second.result ∧ first.assembler.labels = second.assembler.labels ∧
            first.assembler.index = second.assembler.index) := by
  refine ⟨characters_toBytes_iff h, fun hlegible => ⟨fun file => ?_, ?_⟩⟩
  · obtain ⟨hok, hitems⟩ := tokens_toBytes h hlegible file
    have hlist : (Reading.ofList none text).failure? = none := Reading.failure?_ofList none text
    rw [Token.items_ofCharacters_of_none file hlist, Reading.items_ofList]
    exact ⟨hok, hitems⟩
  · intro other otherData hother hlegible' assembler file
    obtain ⟨hok, hitems⟩ := tokens_toBytes h hlegible (file.getD assembler.file)
    obtain ⟨hok', hitems'⟩ := tokens_toBytes hother hlegible' (file.getD assembler.file)
    have houtcome :
        { assembler with encoding := encoding }.outcome data (file.getD assembler.file) =
          { assembler with encoding := other }.outcome otherData (file.getD assembler.file) := by
      simp only [Assembler.outcome, Scope.outcome, hok, hok', hitems, hitems']
    obtain ⟨hresult, hscope⟩ := Assembler.assembleBytes_congr houtcome
    simp only [Assembler.assemble, h, hother, Assembler.labels, Assembler.index]
    exact ⟨hresult, congrArg Scope.labels hscope, congrArg Scope.index hscope⟩

/-- A backslash before another letter than those of the escapes, in Latin-1 with escapes and in
UTF-16. -/
theorem text_means_characters_backslash :
    (Source.text ['\\', 'é']).toBytes "raw_unicode_escape" = .ok [0x5c, 0xe9] ∧
      (tokens "<input>" "raw_unicode_escape" [0x5c, 0xe9]).items =
        [⟨['\\', 'é'], .ofPosition "<input>" .first⟩] ∧
      ∀ (assembler : Assembler) (file : Option String),
        ({ assembler with encoding := "raw_unicode_escape" }.assemble
            (.text ['\\', 'é']) file).result =
          ({ assembler with encoding := "utf-16" }.assemble (.text ['\\', 'é']) file).result := by
  have hescaped : (Source.text ['\\', 'é']).toBytes "raw_unicode_escape" = .ok [0x5c, 0xe9] := by
    decide +kernel
  have hmarked : (Source.text ['\\', 'é']).toBytes "utf-16" =
      .ok [0xff, 0xfe, 0x5c, 0x00, 0xe9, 0x00] := by decide +kernel
  have hplain : Escaped.IsPlain ['\\', 'é'] := .pair (by decide) (by decide) (by decide) .nil
  obtain ⟨-, hmeans⟩ := text_means_characters "raw_unicode_escape" ['\\', 'é'] _ hescaped
  obtain ⟨htokens, hassemble⟩ := hmeans fun _ => hplain
  refine ⟨hescaped, (htokens "<input>").2.trans (by decide), fun assembler file => ?_⟩
  exact (hassemble "utf-16" _ hmarked (fun _ => hplain) assembler file).1

/-- Before the letter of an escape a backslash and what follows are read as another character. -/
theorem tokens_of_escape :
    let text := ['\\', 'u', '0', '0', '4', '1']
    let data := [0x5c, 0x75, 0x30, 0x30, 0x34, 0x31]
    (Source.text text).toBytes "raw_unicode_escape" = .ok data ∧
      (tokens "<input>" "raw_unicode_escape" data).items =
        [⟨['A'], .ofPosition "<input>" .first⟩] ∧
      (Token.ofCharacters "<input>" (Reading.ofList none text)).items ≠
        [⟨['A'], .ofPosition "<input>" .first⟩] := by
  refine ⟨by decide +kernel, by decide +kernel, by decide +kernel⟩

end Source

end StackAssembler

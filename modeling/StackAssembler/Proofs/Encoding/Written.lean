import StackAssembler.Proofs.Encoding.Escaped
import StackAssembler.Proofs.Encoding.Mark

/-!
# Reading back what is written

A text that is written in an encoding is read back from its bytes.  In the encodings of Unicode
every text can be written, in a character set only one whose characters the set has.  The one
encoding in which a text may be written and not read back is the one with escapes.
-/

namespace StackAssembler.Encoding.Charset

variable {charset : Charset} {c : Char} {byte : UInt8}

/-- The byte of a character in the upper half of code page 1252. -/
theorem codePoint_cp1252_upper {n i : Nat} (hn : n ≠ 0)
    (h : cp1252Upper.findIdx? (· == n) = some i) :
    cp1252.codePoint? (UInt8.ofNat (0x80 + i)) = some n := by
  obtain ⟨hi, heq, -⟩ := List.findIdx?_eq_some_iff_getElem.1 h
  have hlength : cp1252Upper.length = 32 := rfl
  have hbyte : (UInt8.ofNat (0x80 + i)).toNat = 0x80 + i := by
    rw [UInt8.toNat_ofNat']
    omega
  have hrange : 0x80 ≤ 0x80 + i ∧ 0x80 + i < 0xa0 := by omega
  have hvalue : cp1252Upper[i]? = some n := by
    rw [List.getElem?_eq_getElem hi]
    exact congrArg some (eq_of_beq heq)
  simp only [codePoint?, hbyte, hrange, and_self, if_true, Nat.add_sub_cancel_left, hvalue]
  simp [hn]

/-- The byte of a character stands for the character. -/
theorem codePoint_of_byte (h : charset.byte? c = some byte) :
    charset.codePoint? byte = some c.toNat := by
  have hbyte : ∀ n < 0x100, (UInt8.ofNat n).toNat = n := by
    intro n hn
    rw [UInt8.toNat_ofNat']
    exact Nat.mod_eq_of_lt hn
  cases charset with
  | ascii =>
      simp only [byte?] at h
      split_ifs at h with hn
      cases h
      simp only [codePoint?, hbyte _ (Nat.lt_trans hn (by decide)), hn, if_true]
  | latin1 =>
      simp only [byte?] at h
      split_ifs at h with hn
      cases h
      simp only [codePoint?, hbyte _ hn]
  | cp1252 =>
      simp only [byte?] at h
      split_ifs at h with hn hzero
      · cases h
        have hout : ¬ (0x80 ≤ c.toNat ∧ c.toNat < 0xa0) := by omega
        simp only [codePoint?, hbyte c.toNat (by omega), hout, if_false]
      · obtain ⟨i, hi, rfl⟩ := Option.map_eq_some_iff.1 h
        exact codePoint_cp1252_upper hzero hi

/-- A text that can be written has the byte of each of its characters. -/
theorem encode_eq_ok_iff (text : List Char) (data : List UInt8) :
    charset.encode text = .ok data ↔ text.mapM charset.byte? = some data := by
  rw [encode]
  cases text.mapM charset.byte? <;> simp

/-- Every character set has the characters of ASCII. -/
theorem byte_of_ascii (charset : Charset) (h : c.toNat < 0x80) :
    charset.byte? c = some (UInt8.ofNat c.toNat) := by
  cases charset with
  | ascii => simp only [byte?, if_pos h]
  | latin1 =>
      have hlt : c.toNat < 0x100 := by omega
      simp only [byte?, if_pos hlt]
  | cp1252 => simp only [byte?, h, true_or, if_true]

end StackAssembler.Encoding.Charset

namespace StackAssembler.Encoding

/-- A text of ASCII can be written in every encoding. -/
theorem exists_encode_of_ascii (scheme : Encoding) {text : List Char}
    (h : ∀ c ∈ text, c.toNat < 0x80) : ∃ data, scheme.encode text = .ok data := by
  cases scheme with
  | charset set =>
      refine ⟨text.map fun c => UInt8.ofNat c.toNat, (Charset.encode_eq_ok_iff text _).2 ?_⟩
      induction text with
      | nil => rfl
      | cons c text ih =>
          rw [List.forall_mem_cons] at h
          rw [List.mapM_cons, Charset.byte_of_ascii set h.1, ih h.2]
          rfl
  | utf8 | signedUtf8 | utf16 | markedUtf16 | utf32 | markedUtf32 | escaped => exact ⟨_, rfl⟩

/-- A text without a backslash has no escape in it. -/
theorem Escaped.isPlain_of_notMem {text : List Char} (h : '\\' ∉ text) : IsPlain text := by
  induction text with
  | nil => exact .nil
  | cons c text ih =>
      rw [List.mem_cons, not_or] at h
      exact .other (Ne.symm h.1) (ih h.2)

end StackAssembler.Encoding

namespace StackAssembler.Source

open Encoding

theorem readFrom_charset (name : String) {charset : Charset} {text : List Char} {data : List UInt8}
    (h : text.mapM charset.byte? = some data) (offset : Nat) :
    (readFrom name charset.form.decoder [] offset data).failure? = none ∧
      (readFrom name charset.form.decoder [] offset data).items = text := by
  induction text generalizing data offset with
  | nil =>
      cases h
      exact ⟨rfl, rfl⟩
  | cons c text ih =>
      rw [List.mapM_cons, Option.bind_eq_bind, Option.bind_eq_some_iff] at h
      obtain ⟨byte, hbyte, h⟩ := h
      obtain ⟨rest, hrest, hdata⟩ := Option.bind_eq_some_iff.1 h
      obtain rfl : byte :: rest = data := Option.some.inj hdata
      have hwhole : charset.form.judge ([] ++ [byte]) = .whole [c.toNat] := by
        simp only [Charset.form, List.nil_append, Charset.codePoint_of_byte hbyte]
      obtain ⟨hok, hitems⟩ := ih hrest (offset + 1)
      rw [readFrom_cons_whole name hwhole]
      exact ⟨hok, congrArg (c :: ·) hitems⟩

/-- What is written without escapes is read back. -/
theorem readFrom_encode (name : String) {scheme : Encoding} (hscheme : scheme ≠ .escaped)
    {text : List Char} {data : List UInt8} (h : scheme.encode text = .ok data) :
    (readFrom name scheme.decoder scheme.decoder.start 0 data).failure? = none ∧
      (readFrom name scheme.decoder scheme.decoder.start 0 data).items = text := by
  cases scheme with
  | utf8 =>
      cases h
      exact (readFrom_text Utf8.form_reads name 0 text).symm
  | signedUtf8 =>
      cases h
      exact ((readFrom_marked (.inl rfl) name _).1 text).2 (.inl (.signed text))
  | utf16 order =>
      cases h
      exact (readFrom_text (Utf16.form_reads order) name 0 text).symm
  | markedUtf16 =>
      cases h
      exact ((readFrom_marked (.inr (.inl rfl)) name _).1 text).2 (.inl (.marked16 .little text))
  | utf32 order =>
      cases h
      exact (readFrom_text (Utf32.form_reads order) name 0 text).symm
  | markedUtf32 =>
      cases h
      exact ((readFrom_marked (.inr (.inr rfl)) name _).1 text).2 (.inl (.marked32 .little text))
  | charset set => exact readFrom_charset name ((Charset.encode_eq_ok_iff text data).1 h) 0
  | escaped => exact absurd rfl hscheme

/-- **What is written is read back**, if it is plain where there are escapes, and only then. -/
theorem readFrom_encode_iff (name : String) {scheme : Encoding} {text : List Char}
    {data : List UInt8} (h : scheme.encode text = .ok data) :
    (readFrom name scheme.decoder scheme.decoder.start 0 data).failure? = none ∧
        (readFrom name scheme.decoder scheme.decoder.start 0 data).items = text ↔
      (scheme = .escaped → Escaped.IsPlain text) := by
  by_cases hscheme : scheme = .escaped
  · subst hscheme
    cases h
    exact (readFrom_encode_iff_isPlain name text).trans ⟨fun h _ => h, fun h => h rfl⟩
  · exact iff_of_true (readFrom_encode name hscheme h) fun he => absurd he hscheme

end StackAssembler.Source

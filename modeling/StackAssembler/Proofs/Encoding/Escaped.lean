import Mathlib.Tactic.NormNum
import StackAssembler.Proofs.Encoding.Code
import StackAssembler.Proofs.Text.Numeral

/-!
# Reading back text with escapes

In Latin-1 with escapes a backslash is written as it is.  A reader takes it for the beginning of an
escape if the letter of an escape follows, and for itself otherwise, together with whatever follows.
So not every text that is written is read back: only a *plain* one is, in which no backslash comes
before such a letter, or before a character that must itself be escaped.

That other texts are not read back is a matter of size.  What is read of some bytes never takes more
bytes when it is written again, but the escape that a reader sees in a text leaves too few bytes for
the rest of the text.

## Main definitions

* `Escaped.IsPlain`: the texts without a backslash that a reader mistakes.
-/

namespace StackAssembler.Encoding.Escaped

open Text (Base)

/-! ## Hexadecimal digits -/

theorem mapM_digit_concat (bytes : List UInt8) (byte : UInt8) :
    (bytes ++ [byte]).mapM digit? =
      (bytes.mapM digit?).bind fun digits => (digit? byte).map fun d => digits ++ [d] := by
  rw [List.mapM_append]
  cases bytes.mapM digit? with
  | none => rfl
  | some digits => cases hd : digit? byte <;> simp [hd]

theorem value_concat (digits : List Nat) (d : Nat) :
    Base.sixteen.value (digits ++ [d]) = Base.sixteen.value digits * 16 + d := by
  simp only [Base.value, List.foldl_append, List.foldl_cons, List.foldl_nil, Base.radix]

theorem digit_lt {byte : UInt8} {d : Nat} (h : digit? byte = some d) : d < 16 := by
  simp only [digit?, Base.digit?] at h
  split_ifs at h <;> cases h <;> omega

/-- Digits denote a number for which there are that many digits. -/
theorem digits_bound {bytes : List UInt8} {digits : List Nat}
    (h : bytes.mapM digit? = some digits) :
    digits.length = bytes.length ∧ Base.sixteen.value digits < 16 ^ bytes.length := by
  induction bytes using List.reverseRecOn generalizing digits with
  | nil =>
      cases h
      exact ⟨rfl, Nat.one_pos⟩
  | append_singleton bytes byte ih =>
      rw [mapM_digit_concat, Option.bind_eq_some_iff] at h
      obtain ⟨front, hfront, hlast⟩ := h
      obtain ⟨d, hd, rfl⟩ := Option.map_eq_some_iff.1 hlast
      obtain ⟨hlength, hvalue⟩ := ih hfront
      have hlt := digit_lt hd
      rw [value_concat, List.length_append, List.length_append, hlength, List.length_singleton,
        List.length_singleton, Nat.pow_succ]
      omega

/-- The bytes of digits are read as the digits. -/
theorem mapM_digit_of_reads {text : List Char} {digits : List Nat}
    (h : Base.sixteen.Reads text digits) : (asciiBytes text).mapM digit? = some digits := by
  induction h with
  | nil => rfl
  | @cons c d text digits hd _ ih =>
      have hrange := Base.range_of_digit? hd
      have hc : digit? (UInt8.ofNat c.toNat) = some d := by
        rw [digit?, UInt8.toNat_ofNat', Nat.mod_eq_of_lt (by omega), Char.ofNat_toNat, hd]
      rw [asciiBytes] at ih
      rw [asciiBytes, List.map_cons, List.mapM_cons, hc, ih]
      rfl

theorem length_hex {width n : Nat} (hpos : 0 < width) (h : n < 16 ^ width) :
    (asciiBytes (Text.hex width n)).length = width := by
  rw [asciiBytes, List.length_map, Text.length_hex hpos h]

/-- A number filled up with zeros is read as that number. -/
theorem digits_hex (width n : Nat) :
    ∃ digits, (asciiBytes (Text.hex width n)).mapM digit? = some digits ∧
      Base.sixteen.value digits = n := by
  obtain ⟨digits, hdigits, hvalue⟩ := Text.denotes_hex width n
  exact ⟨digits, mapM_digit_of_reads hdigits, hvalue⟩

/-! ## Escapes -/

/-- The letters of the escapes. -/
def IsMark (mark : UInt8) : Prop := mark = shortMark ∨ mark = longMark

/-- How many digits follow the letter of an escape. -/
def width (mark : UInt8) : Nat := if mark = shortMark then 4 else 8

section Escape

variable {mark : UInt8} {bytes : List UInt8} {digits : List Nat}

/-- The digits of an escape are judged once there is one. -/
theorem judge_digits (mark byte : UInt8) (bytes : List UInt8) :
    ∃ flaw, judge (backslash :: mark :: byte :: bytes) =
      judgeDigits (width mark) flaw (byte :: bytes) := by
  by_cases h : mark = shortMark
  · exact ⟨.shortEscape, by simp [judge, width, h]⟩
  · exact ⟨.longEscape, by simp [judge, width, h]⟩

/-- An escape goes on until it has all its digits. -/
theorem judge_escape_part (hm : IsMark mark) (h : bytes.mapM digit? = some digits)
    (hl : bytes.length < width mark) : judge (backslash :: mark :: bytes) = .part := by
  cases bytes with
  | nil => exact if_pos hm
  | cons byte bytes =>
      obtain ⟨flaw, hjudge⟩ := judge_digits mark byte bytes
      have hlength : digits.length < width mark := by
        rw [(digits_bound h).1]
        exact hl
      rw [hjudge]
      simp only [judgeDigits, h, hlength, if_true]

/-- A complete escape stands for its number. -/
theorem judge_escape_whole (h : bytes.mapM digit? = some digits)
    (hl : bytes.length = width mark) :
    judge (backslash :: mark :: bytes) =
      if 0x110000 ≤ Base.sixteen.value digits then .bad .escapeTooLarge
      else .whole [Base.sixteen.value digits] := by
  cases bytes with
  | nil =>
      simp only [List.length_nil, width] at hl
      split_ifs at hl
  | cons byte bytes =>
      obtain ⟨flaw, hjudge⟩ := judge_digits mark byte bytes
      have hlength : ¬ digits.length < width mark := by
        rw [(digits_bound h).1, hl]
        exact Nat.lt_irrefl _
      rw [hjudge]
      simp only [judgeDigits, h, hlength, if_false]

/-- Nothing but digits may follow the letter of an escape. -/
theorem judge_escape_bad (mark : UInt8) (h : bytes.mapM digit? = none) :
    ∃ flaw, judge (backslash :: mark :: bytes) = .bad flaw := by
  cases bytes with
  | nil => cases h
  | cons byte bytes =>
      by_cases hshort : mark = shortMark
      · exact ⟨.shortEscape, by simp [judge, judgeDigits, hshort, h]⟩
      · exact ⟨.longEscape, by simp [judge, judgeDigits, hshort, h]⟩

theorem awaits_escape (hm : IsMark mark) (h : bytes.mapM digit? = some digits)
    (hl : bytes.length < width mark) : form.Awaits (backslash :: mark :: bytes) := by
  have hbackslash : form.Awaits [backslash] := (Form.awaits_nil form).concat rfl
  induction bytes using List.reverseRecOn generalizing digits with
  | nil => exact hbackslash.concat (judge_escape_part hm h hl)
  | append_singleton bytes byte ih =>
      have hpart := judge_escape_part hm h hl
      rw [mapM_digit_concat, Option.bind_eq_some_iff] at h
      obtain ⟨front, hfront, -⟩ := h
      rw [List.length_append, List.length_singleton] at hl
      exact (ih hfront (by omega)).concat hpart

end Escape

/-- How the bytes of a character look. -/
theorem encodeChar_cases (c : Char) :
    (c.toNat < 0x100 ∧ encodeChar c = [UInt8.ofNat c.toNat]) ∨
      ∃ mark, IsMark mark ∧ 0x100 ≤ c.toNat ∧ c.toNat < 16 ^ width mark ∧
        encodeChar c = backslash :: mark :: asciiBytes (Text.hex (width mark) c.toNat) := by
  by_cases hbyte : c.toNat < 0x100
  · exact .inl ⟨hbyte, if_pos hbyte⟩
  · by_cases hshort : c.toNat < 0x10000
    · refine .inr ⟨shortMark, .inl rfl, Nat.le_of_not_lt hbyte, hshort, ?_⟩
      exact (if_neg hbyte).trans (if_pos hshort)
    · refine .inr ⟨longMark, .inr rfl, Nat.le_of_not_lt hbyte, ?_, ?_⟩
      · have hvalid : c.toNat < 0xd800 ∨ 0xdfff < c.toNat ∧ c.toNat < 0x110000 := c.valid
        change c.toNat < 16 ^ 8
        omega
      · exact (if_neg hbyte).trans (if_neg hshort)

/-- A byte is the character of its number. -/
theorem encodeChar_ofNat (byte : UInt8) : encodeChar (Char.ofNat byte.toNat) = [byte] := by
  have hn : (Char.ofNat byte.toNat).toNat = byte.toNat :=
    toNat_ofNat (.inl (Nat.lt_trans byte.toNat_lt (by decide)))
  rw [encodeChar, hn]
  simp only [byte.toNat_lt, if_true, UInt8.ofNat_toNat]

theorem isMark_iff (byte : UInt8) :
    IsMark byte ↔ Char.ofNat byte.toNat = 'u' ∨ Char.ofNat byte.toNat = 'U' := by
  have hsame : ∀ other : UInt8, byte = other ↔ Char.ofNat byte.toNat = Char.ofNat other.toNat := by
    intro other
    refine ⟨fun h => h ▸ rfl, fun h => ?_⟩
    have hcode := encodeChar_ofNat byte
    rw [h, encodeChar_ofNat] at hcode
    exact (List.singleton_inj.1 hcode).symm
  exact or_congr (hsame shortMark) (hsame longMark)

theorem exists_byte {c : Char} (h : c.toNat < 0x100) :
    ∃ byte : UInt8, c = Char.ofNat byte.toNat := by
  refine ⟨UInt8.ofNat c.toNat, ?_⟩
  rw [UInt8.toNat_ofNat', Nat.mod_eq_of_lt h, Char.ofNat_toNat]

theorem length_encodeChar (c : Char) :
    (encodeChar c).length =
      if c.toNat < 0x100 then 1 else if c.toNat < 0x10000 then 6 else 10 := by
  have hvalid : c.toNat < 0xd800 ∨ 0xdfff < c.toNat ∧ c.toNat < 0x110000 := c.valid
  by_cases hbyte : c.toNat < 0x100
  · simp [encodeChar, hbyte]
  · by_cases hshort : c.toNat < 0x10000
    · have hlength : (asciiBytes (Text.hex 4 c.toNat)).length = 4 := length_hex (by decide) hshort
      simp [encodeChar, hbyte, hshort, hlength]
    · have hlength : (asciiBytes (Text.hex 8 c.toNat)).length = 8 :=
        length_hex (by decide) (by omega)
      simp [encodeChar, hbyte, hshort, hlength]

/-- No character takes more bytes than an escape that can hold its number. -/
theorem length_encodeChar_le {mark : UInt8} (hm : IsMark mark) {c : Char}
    (h : c.toNat < 16 ^ width mark) : (encodeChar c).length ≤ width mark + 2 := by
  rw [length_encodeChar]
  rcases hm with rfl | rfl
  · change c.toNat < 16 ^ 4 at h
    change _ ≤ 6
    split_ifs <;> omega
  · change _ ≤ 10
    split_ifs <;> omega

theorem encode_cons (c : Char) (text : List Char) :
    encode (c :: text) = encodeChar c ++ encode text := rfl

theorem encode_backslash_cons (byte : UInt8) (text : List Char) :
    encode ('\\' :: Char.ofNat byte.toNat :: text) = backslash :: byte :: encode text := by
  rw [encode_cons, encode_cons, encodeChar_ofNat]
  rfl

/-! ## Plain texts -/

/-- The text has no backslash that a reader takes for another one than it is. -/
inductive IsPlain : List Char → Prop
  | nil : IsPlain []
  /-- At the end there is nothing that a backslash could belong to. -/
  | backslash : IsPlain ['\\']
  | other {c : Char} {text : List Char} : c ≠ '\\' → IsPlain text → IsPlain (c :: text)
  /-- A backslash and the character after it are read together. -/
  | pair {c : Char} {text : List Char} : c.toNat < 0x100 → c ≠ 'u' → c ≠ 'U' → IsPlain text →
      IsPlain ('\\' :: c :: text)

end StackAssembler.Encoding.Escaped

namespace StackAssembler.Source

open Encoding Encoding.Escaped

/-! ## Reading -/

section Reading

variable (encoding : String) (offset : Nat)

theorem readFrom_escaped_byte {byte : UInt8} (h : byte ≠ backslash) (bytes : List UInt8) :
    readFrom encoding Escaped.form.decoder [] offset (byte :: bytes) =
      .next (Char.ofNat byte.toNat) (offset + 1)
        (readFrom encoding Escaped.form.decoder [] (offset + 1) bytes) := by
  apply readFrom_cons_whole encoding
  rw [toNat_ofNat (.inl (Nat.lt_trans byte.toNat_lt (by decide)))]
  exact if_neg h

/-- A backslash at the end stands for itself. -/
theorem readFrom_escaped_end :
    readFrom encoding Escaped.form.decoder [] offset [backslash] =
      .next '\\' (offset + 1) (.done (offset + 1)) := by
  have hfinish : Escaped.form.decoder.finish [backslash] = .ok [0x5c] := rfl
  have hstep : Escaped.form.decoder.step [] backslash = .ok ([backslash], []) := rfl
  rw [readFrom_of_step_ok encoding hstep, deliver, readFrom_of_finish_ok encoding hfinish]
  rfl

/-- A backslash and a byte that is no letter of an escape stand for themselves. -/
theorem readFrom_escaped_pair {byte : UInt8} (h : ¬ IsMark byte) (bytes : List UInt8) :
    readFrom encoding Escaped.form.decoder [] offset (backslash :: byte :: bytes) =
      .next '\\' (offset + 2) (.next (Char.ofNat byte.toNat) (offset + 2)
        (readFrom encoding Escaped.form.decoder [] (offset + 2) bytes)) := by
  have hwhole : Escaped.form.judge [backslash, byte] = .whole [0x5c, byte.toNat] := if_neg h
  have hvalid : byte.toNat.isValidChar := .inl (Nat.lt_trans byte.toNat_lt (by decide))
  have hstep : Escaped.form.decoder.step [backslash] byte = .ok ([], [0x5c, byte.toNat]) := by
    change Escaped.form.advance [backslash, byte] = _
    simp only [Form.advance, hwhole]
    rfl
  have hfirst : Escaped.form.decoder.step [] backslash = .ok ([backslash], []) := rfl
  rw [readFrom_of_step_ok encoding hfirst, deliver, readFrom_of_step_ok encoding hstep]
  simp only [deliver, if_pos hvalid, if_pos (by decide : (0x5c).isValidChar)]

/-- A character that is written as an escape is read back. -/
theorem readFrom_escape {c : Char} (h : 0x100 ≤ c.toNat) (bytes : List UInt8) :
    ∃ count, readFrom encoding Escaped.form.decoder [] offset (encodeChar c ++ bytes) =
      .next c count (readFrom encoding Escaped.form.decoder [] count bytes) := by
  rcases encodeChar_cases c with ⟨hlt, -⟩ | ⟨mark, hm, -, hbound, hc⟩
  · omega
  · obtain ⟨digits, hdigits, hvalue⟩ := digits_hex (width mark) c.toNat
    have hlength : (asciiBytes (Text.hex (width mark) c.toNat)).length = width mark := by
      rcases hm with rfl | rfl <;> exact length_hex (by decide) hbound
    have hvalid : c.toNat < 0xd800 ∨ 0xdfff < c.toNat ∧ c.toNat < 0x110000 := c.valid
    have hwhole := judge_escape_whole hdigits hlength
    rw [hvalue, if_neg (by omega)] at hwhole
    rw [hc]
    -- The last digit completes the escape.
    generalize asciiBytes (Text.hex (width mark) c.toNat) = ascii at hdigits hlength hwhole
    cases ascii using List.reverseRecOn with
    | nil => rcases hm with rfl | rfl <;> cases hlength
    | append_singleton front last =>
        rw [mapM_digit_concat, Option.bind_eq_some_iff] at hdigits
        obtain ⟨values, hfront, -⟩ := hdigits
        rw [List.length_append, List.length_singleton] at hlength
        have ha := awaits_escape hm hfront (by omega)
        have hbytes : backslash :: mark :: (front ++ [last]) ++ bytes =
            (backslash :: mark :: front) ++ last :: bytes := by simp
        rw [hbytes, readFrom_awaits encoding ha]
        exact ⟨_, readFrom_cons_whole encoding hwhole _ bytes⟩

/-- A number that is read without a failure is a character. -/
theorem exists_char_of_whole {form : Form} {pending bytes : List UInt8} {byte : UInt8} {n : Nat}
    (h : form.judge (pending ++ [byte]) = .whole [n])
    (hok : (readFrom encoding form.decoder pending offset (byte :: bytes)).failure? = none) :
    ∃ c : Char, c.toNat = n := by
  have hstep : form.decoder.step pending byte = .ok ([], [n]) := by
    simp only [Form.decoder, Form.advance, h]
  by_cases hvalid : n.isValidChar
  · exact ⟨Char.ofNat n, toNat_ofNat hvalid⟩
  · rw [readFrom_of_step_ok encoding hstep, deliver, if_neg hvalid] at hok
    cases hok

/-- What is read where an escape begins, if nothing fails there. -/
theorem readFrom_escape_of_no_failure {mark : UInt8} (hm : IsMark mark) {seen : List UInt8}
    {digits : List Nat} (h : seen.mapM digit? = some digits) (hl : seen.length < width mark)
    {bytes : List UInt8}
    (hok : (readFrom encoding Escaped.form.decoder (backslash :: mark :: seen) offset
      bytes).failure? = none) :
    ∃ more rest c count, bytes = more ++ rest ∧ seen.length + more.length = width mark ∧
      c.toNat < 16 ^ width mark ∧
      readFrom encoding Escaped.form.decoder (backslash :: mark :: seen) offset bytes =
        .next c count (readFrom encoding Escaped.form.decoder [] count rest) := by
  induction bytes generalizing seen digits offset with
  | nil =>
      obtain ⟨flaw, hflaw⟩ : ∃ flaw,
          Escaped.form.finish (backslash :: mark :: seen) = .error flaw := by
        change ∃ flaw, (if mark = shortMark then _ else _) = _
        split_ifs
        · exact ⟨_, rfl⟩
        · exact ⟨_, rfl⟩
      rw [readFrom_nil_error encoding hflaw] at hok
      cases hok
  | cons byte bytes ih =>
      cases hd : digit? byte with
      | none =>
          have hnone : (seen ++ [byte]).mapM digit? = none := by
            rw [mapM_digit_concat, h, hd]
            rfl
          obtain ⟨flaw, hbad⟩ := judge_escape_bad mark hnone
          rw [readFrom_cons_bad encoding hbad] at hok
          cases hok
      | some d =>
          have hmore : (seen ++ [byte]).mapM digit? = some (digits ++ [d]) := by
            rw [mapM_digit_concat, h, hd]
            rfl
          by_cases hlast : (seen ++ [byte]).length < width mark
          · have hpart := judge_escape_part hm hmore hlast
            rw [readFrom_cons_part encoding hpart] at hok ⊢
            obtain ⟨more, rest, c, count, rfl, hlength, hbound, hread⟩ := ih _ hmore hlast hok
            refine ⟨byte :: more, rest, c, count, rfl, ?_, hbound, hread⟩
            rw [← hlength, List.length_append, List.length_cons, List.length_singleton]
            omega
          · have hlength : (seen ++ [byte]).length = width mark := by
              rw [List.length_append, List.length_singleton] at hlast ⊢
              omega
            have hwhole := judge_escape_whole hmore hlength
            have hvalue := (digits_bound hmore).2
            split_ifs at hwhole with hlarge
            · rw [readFrom_cons_bad encoding hwhole] at hok
              cases hok
            · obtain ⟨c, hc⟩ := exists_char_of_whole encoding offset hwhole hok
              rw [← hc] at hwhole hvalue
              refine ⟨[byte], bytes, c, _, rfl, ?_, hlength ▸ hvalue,
                readFrom_cons_whole encoding hwhole offset bytes⟩
              rw [← hlength, List.length_append]

theorem exists_escape {mark : UInt8} (hm : IsMark mark) {bytes : List UInt8}
    (hok : (readFrom encoding Escaped.form.decoder [] offset
      (backslash :: mark :: bytes)).failure? = none) :
    ∃ more rest c count, bytes = more ++ rest ∧ more.length = width mark ∧
      c.toNat < 16 ^ width mark ∧
      readFrom encoding Escaped.form.decoder [] offset (backslash :: mark :: bytes) =
        .next c count (readFrom encoding Escaped.form.decoder [] count rest) := by
  have hpos : ([] : List UInt8).length < width mark := by
    rcases hm with rfl | rfl <;> decide
  have hnil : ([] : List UInt8).mapM digit? = some [] := rfl
  have ha : Escaped.form.Awaits [backslash, mark] := awaits_escape hm hnil hpos
  have hread := readFrom_awaits encoding ha offset bytes
  rw [List.cons_append, List.cons_append, List.nil_append] at hread
  rw [hread] at hok ⊢
  obtain ⟨more, rest, c, count, hbytes, hlength, hc, hnext⟩ :=
    readFrom_escape_of_no_failure encoding _ hm hnil hpos hok
  rw [List.length_nil, Nat.zero_add] at hlength
  exact ⟨more, rest, c, count, hbytes, hlength, hc, hnext⟩

/-- Every character but the backslash is read back. -/
theorem readFrom_escaped_char {c : Char} (h : c ≠ '\\') (bytes : List UInt8) :
    ∃ count, readFrom encoding Escaped.form.decoder [] offset (encodeChar c ++ bytes) =
      .next c count (readFrom encoding Escaped.form.decoder [] count bytes) := by
  by_cases hbyte : c.toNat < 0x100
  · obtain ⟨byte, rfl⟩ := exists_byte hbyte
    have hb : byte ≠ backslash := by
      rintro rfl
      exact h rfl
    rw [encodeChar_ofNat, List.singleton_append]
    exact ⟨_, readFrom_escaped_byte encoding offset hb bytes⟩
  · exact readFrom_escape encoding offset (Nat.le_of_not_lt hbyte) bytes

/-- **What is read takes no more bytes than it was read from.** -/
theorem length_encode_items_le (bytes : List UInt8)
    (hok : (readFrom encoding Escaped.form.decoder [] offset bytes).failure? = none) :
    (Escaped.encode (readFrom encoding Escaped.form.decoder [] offset bytes).items).length ≤
      bytes.length := by
  induction hn : bytes.length using Nat.strongRecOn generalizing bytes offset with
  | _ n ih =>
      subst hn
      match bytes with
      | [] => exact Nat.le_refl 0
      | byte :: bytes =>
          by_cases hb : byte = backslash
          · subst hb
            match bytes with
            | [] =>
                rw [readFrom_escaped_end]
                exact Nat.le_refl 1
            | mark :: bytes =>
                by_cases hm : IsMark mark
                · obtain ⟨more, rest, c, count, rfl, hlength, hc, hread⟩ :=
                    exists_escape encoding offset hm hok
                  rw [hread] at hok ⊢
                  have hshort : rest.length < (backslash :: mark :: (more ++ rest)).length := by
                    rw [List.length_cons, List.length_cons, List.length_append]
                    omega
                  have hle := ih rest.length hshort count rest hok rfl
                  have hchar := length_encodeChar_le hm hc
                  rw [Reading.items, encode_cons, List.length_append, List.length_cons,
                    List.length_cons, List.length_append]
                  omega
                · rw [readFrom_escaped_pair encoding offset hm] at hok ⊢
                  have hshort : bytes.length < (backslash :: mark :: bytes).length := by
                    rw [List.length_cons, List.length_cons]
                    omega
                  have hle := ih bytes.length hshort (offset + 2) bytes hok rfl
                  have hbackslash : (encodeChar '\\').length = 1 := rfl
                  rw [Reading.items, Reading.items, encode_cons, encode_cons, encodeChar_ofNat,
                    List.length_append, List.length_append, hbackslash, List.length_singleton,
                    List.length_cons, List.length_cons]
                  omega
          · rw [readFrom_escaped_byte encoding offset hb] at hok ⊢
            have hle := ih bytes.length (by simp) (offset + 1) bytes hok rfl
            rw [Reading.items, encode_cons, encodeChar_ofNat, List.length_append,
              List.length_singleton, List.length_cons]
            omega

/-- A plain text is read back. -/
theorem readFrom_encode_of_isPlain {text : List Char} (h : IsPlain text) :
    (readFrom encoding Escaped.form.decoder [] offset (Escaped.encode text)).failure? = none ∧
      (readFrom encoding Escaped.form.decoder [] offset (Escaped.encode text)).items = text := by
  induction h generalizing offset with
  | nil => exact ⟨rfl, rfl⟩
  | backslash =>
      have hbytes : Escaped.encode ['\\'] = [backslash] := rfl
      rw [hbytes, readFrom_escaped_end]
      exact ⟨rfl, rfl⟩
  | @other c text hc _ ih =>
      obtain ⟨count, hread⟩ := readFrom_escaped_char encoding offset hc (Escaped.encode text)
      obtain ⟨hok, hitems⟩ := ih count
      rw [encode_cons, hread]
      exact ⟨hok, congrArg (c :: ·) hitems⟩
  | @pair c text hlt hu hU _ ih =>
      obtain ⟨byte, rfl⟩ := exists_byte hlt
      have hm : ¬ IsMark byte := fun h => ((isMark_iff byte).1 h).elim hu hU
      obtain ⟨hok, hitems⟩ := ih (offset + 2)
      rw [encode_backslash_cons, readFrom_escaped_pair encoding offset hm]
      exact ⟨hok, congrArg (fun items => _ :: _ :: items) hitems⟩

/-- A text in which a backslash begins an escape is not read back: the escape leaves too few bytes
for its letter and the rest of the text. -/
theorem items_ne_of_escape {mark : UInt8} (hm : IsMark mark) (text : List Char)
    (hok : (readFrom encoding Escaped.form.decoder [] offset
      (backslash :: mark :: Escaped.encode text)).failure? = none) :
    (readFrom encoding Escaped.form.decoder [] offset
      (backslash :: mark :: Escaped.encode text)).items ≠
        '\\' :: Char.ofNat mark.toNat :: text := by
  intro hitems
  obtain ⟨more, rest, c, count, hrest, hlength, -, hread⟩ := exists_escape encoding offset hm hok
  rw [hread] at hok hitems
  have hle := length_encode_items_le encoding count rest hok
  rw [(List.cons.inj hitems).2, encode_cons, encodeChar_ofNat, hrest, List.length_append,
    List.length_append, List.length_singleton] at hle
  omega

/-- No text is read back in which a backslash comes before a character that is escaped: its escape
begins with a backslash, which is read together with the one before it. -/
theorem items_ne_of_escaped {c : Char} (h : 0x100 ≤ c.toNat) (text : List Char) :
    (readFrom encoding Escaped.form.decoder [] offset
      (Escaped.encode ('\\' :: c :: text))).items ≠ '\\' :: c :: text := by
  intro hitems
  have hbytes : Escaped.encode ('\\' :: c :: text) =
      backslash :: (encodeChar c ++ Escaped.encode text) := rfl
  rcases encodeChar_cases c with ⟨hlt, -⟩ | ⟨mark, -, -, -, hcode⟩
  · omega
  · have hm : ¬ IsMark backslash := by rintro (h | h) <;> cases h
    rw [hbytes, hcode, List.cons_append, readFrom_escaped_pair encoding offset hm] at hitems
    have hchar : Char.ofNat backslash.toNat = c := by
      injection hitems with _ htail
      injection htail
    rw [← hchar] at h
    exact absurd h (by decide)

/-- Only a plain text is read back. -/
theorem isPlain_of_readFrom_encode {text : List Char}
    (hok : (readFrom encoding Escaped.form.decoder [] offset (Escaped.encode text)).failure? = none)
    (hitems : (readFrom encoding Escaped.form.decoder [] offset (Escaped.encode text)).items =
      text) : IsPlain text := by
  induction hn : text.length using Nat.strongRecOn generalizing text offset with
  | _ n ih =>
      subst hn
      match text with
      | [] => exact .nil
      | c :: text =>
          by_cases hc : c = '\\'
          · subst hc
            match text with
            | [] => exact .backslash
            | c :: text =>
                by_cases hlt : c.toNat < 0x100
                · obtain ⟨byte, rfl⟩ := exists_byte hlt
                  rw [encode_backslash_cons] at hok hitems
                  by_cases hm : IsMark byte
                  · exact absurd hitems (items_ne_of_escape encoding offset hm text hok)
                  · rw [readFrom_escaped_pair encoding offset hm] at hok hitems
                    simp only [Reading.items, List.cons.injEq, true_and] at hitems
                    have hshort : text.length < ('\\' :: Char.ofNat byte.toNat :: text).length := by
                      rw [List.length_cons, List.length_cons]
                      omega
                    have hplain := ih text.length hshort (offset + 2) hok hitems rfl
                    rw [isMark_iff, not_or] at hm
                    exact .pair hlt hm.1 hm.2 hplain
                · exact absurd hitems
                    (items_ne_of_escaped encoding offset (Nat.le_of_not_lt hlt) text)
          · obtain ⟨count, hread⟩ := readFrom_escaped_char encoding offset hc (Escaped.encode text)
            rw [encode_cons, hread] at hok hitems
            exact .other hc (ih text.length (by simp) count hok (List.cons.inj hitems).2 rfl)

end Reading

/-- **Exactly the plain texts are read back.** -/
theorem readFrom_encode_iff_isPlain (encoding : String) (text : List Char) :
    (readFrom encoding Escaped.form.decoder [] 0 (Escaped.encode text)).failure? = none ∧
        (readFrom encoding Escaped.form.decoder [] 0 (Escaped.encode text)).items = text ↔
      IsPlain text :=
  ⟨fun h => isPlain_of_readFrom_encode encoding 0 h.1 h.2, readFrom_encode_of_isPlain encoding 0⟩

end StackAssembler.Source

import StackAssembler.Proofs.Source.Words

/-!
# Words in bytes

In UTF-8 a program can be cut into words without being read: the spaces and newlines are single
bytes, and no other character has such a byte in it.  The words that are read are the first ones of
those, and all of them if the program is read to its end.
-/

namespace StackAssembler

open Encoding

/-- The bytes at which a program is cut: spaces and newlines. -/
def isBreakByte (byte : UInt8) : Bool := byte == 0x20 || byte == 0x0a

/-- The words of bytes: they are cut at every space and at every newline. -/
def wordsOfBytes (bytes : List UInt8) : List (List UInt8) := bytes.splitOnP isBreakByte

/-! ## Bytes of characters -/

namespace Encoding.Utf8

theorem encode_cons (c : Char) (text : List Char) :
    encode (c :: text) = String.utf8EncodeChar c ++ encode text := rfl

theorem encode_concat (text : List Char) (c : Char) :
    encode (text ++ [c]) = encode text ++ String.utf8EncodeChar c := by
  simp [encode]

/-- A character of ASCII is the byte of its number. -/
theorem encodeChar_ascii {c : Char} (h : c.toNat < 0x80) :
    String.utf8EncodeChar c = [UInt8.ofNat c.toNat] := by
  have hval : c.val.toNat ≤ 0x7f := Nat.le_of_lt_succ h
  simp only [String.utf8EncodeChar, hval, if_true]
  rfl

theorem encode_ascii {text : List Char} (h : ∀ c ∈ text, c.toNat < 0x80) :
    encode text = text.map fun c => UInt8.ofNat c.toNat := by
  induction text with
  | nil => rfl
  | cons c text ih =>
      rw [List.forall_mem_cons] at h
      rw [encode_cons, encodeChar_ascii h.1, ih h.2, List.map_cons, List.singleton_append]

/-- All bytes of another character lie outside ASCII. -/
theorem le_of_mem_encodeChar {c : Char} (h : 0x80 ≤ c.toNat) {byte : UInt8}
    (hb : byte ∈ String.utf8EncodeChar c) : 0x80 ≤ byte.toNat := by
  have hspells := spells_encodeChar c
  generalize String.utf8EncodeChar c = bytes at hb hspells
  generalize c.toNat = n at h hspells
  cases hspells with
  | one ha => omega
  | two ha _ hadmits =>
      have hsecond := ((admits_iff _ _).1 hadmits).1
      simp only [List.mem_cons, List.not_mem_nil, or_false] at hb
      rcases hb with rfl | rfl <;> omega
  | three ha _ hadmits _ hc =>
      have hsecond := ((admits_iff _ _).1 hadmits).1
      have hthird := (isTail_iff _).1 hc
      simp only [List.mem_cons, List.not_mem_nil, or_false] at hb
      rcases hb with rfl | rfl | rfl <;> omega
  | four ha _ hadmits hc hd =>
      have hsecond := ((admits_iff _ _).1 hadmits).1
      have hthird := (isTail_iff _).1 hc
      have hfourth := (isTail_iff _).1 hd
      simp only [List.mem_cons, List.not_mem_nil, or_false] at hb
      rcases hb with rfl | rfl | rfl | rfl <;> omega

end Encoding.Utf8

theorem isBreakByte_iff (byte : UInt8) :
    isBreakByte byte = true ↔ byte.toNat = 0x20 ∨ byte.toNat = 0x0a := by
  simp [isBreakByte, ← UInt8.toNat_inj]

/-- A character at which a text is cut is a byte at which its bytes are cut. -/
theorem exists_breakByte {c : Char} (h : isBreak c = true) :
    ∃ byte, String.utf8EncodeChar c = [byte] ∧ isBreakByte byte = true := by
  simp only [isBreak, Bool.or_eq_true, beq_iff_eq] at h
  rcases h with rfl | rfl
  · exact ⟨0x20, by decide, rfl⟩
  · exact ⟨0x0a, by decide, rfl⟩

/-- No other character has such a byte. -/
theorem not_isBreakByte_of_mem {c : Char} (h : isBreak c = false) {byte : UInt8}
    (hb : byte ∈ String.utf8EncodeChar c) : isBreakByte byte = false := by
  rw [← Bool.not_eq_true, isBreakByte_iff]
  by_cases hascii : c.toNat < 0x80
  · rw [Utf8.encodeChar_ascii hascii, List.mem_singleton] at hb
    have hbyte : byte.toNat = c.toNat := by
      rw [hb, UInt8.toNat_ofNat']
      omega
    rw [hbyte]
    rintro (hc | hc)
    · have hspace : c = ' ' := Char.toNat_inj.1 hc
      rw [hspace] at h
      cases h
    · have hnewline : c = '\n' := Char.toNat_inj.1 hc
      rw [hnewline] at h
      cases h
  · have hle := Utf8.le_of_mem_encodeChar (Nat.le_of_not_lt hascii) hb
    omega

/-! ## Cutting -/

/-- Where there is no break, nothing is cut. -/
theorem splitOnPPrepend_append {bytes : List UInt8} (h : ∀ byte ∈ bytes, isBreakByte byte = false)
    (rest acc : List UInt8) :
    (bytes ++ rest).splitOnPPrepend isBreakByte acc =
      rest.splitOnPPrepend isBreakByte (bytes.reverse ++ acc) := by
  induction bytes generalizing acc with
  | nil => rfl
  | cons byte bytes ih =>
      rw [List.forall_mem_cons] at h
      rw [List.cons_append, List.splitOnPPrepend_cons_neg h.1, ih h.2, List.reverse_cons,
        List.append_assoc, List.singleton_append]

/-- **Bytes are cut as their text is.** -/
theorem splitOnPPrepend_encode (file : String) (cutting : Cutting) (text : List Char)
    (rest : List UInt8) :
    (Utf8.encode text ++ rest).splitOnPPrepend isBreakByte
        (Utf8.encode cutting.word.reverse).reverse =
      ((cutting.completed file text).map fun token => Utf8.encode token.text) ++
        rest.splitOnPPrepend isBreakByte
          (Utf8.encode (cutting.after text).word.reverse).reverse := by
  induction text generalizing cutting with
  | nil => rfl
  | cons c text ih =>
      rw [Utf8.encode_cons, List.append_assoc, Cutting.after_cons]
      by_cases hc : isBreak c = true
      · obtain ⟨byte, hcode, hbyte⟩ := exists_breakByte hc
        have hnext := ih (cutting.next c)
        rw [Cutting.word_next hc] at hnext
        rw [hcode, List.singleton_append, List.splitOnPPrepend_cons_pos hbyte, List.reverse_reverse,
          Cutting.completed_break file cutting hc, List.map_cons, List.cons_append, ← hnext]
        rfl
      · have hword : (cutting.next c).word = c :: cutting.word := by
          rw [Cutting.next_unbroken (by simpa using hc)]
        have hbytes : ∀ byte ∈ String.utf8EncodeChar c, isBreakByte byte = false :=
          fun byte hb => not_isBreakByte_of_mem (by simpa using hc) hb
        rw [splitOnPPrepend_append hbytes, Cutting.completed, if_neg hc, ← ih, hword,
          List.reverse_cons, Utf8.encode_concat, List.reverse_append]

namespace Source

variable {name : String}

/-- What is read of bytes in UTF-8: the words of a text, or the words that a text completes before
something that is no text. -/
theorem exists_text_of_utf8 (hname : ofName? name = some .utf8) (file : String)
    (bytes : List UInt8) :
    ∃ text rest, bytes = Utf8.encode text ++ rest ∧
      ((rest = [] ∧ (tokens file name bytes).failure? = none ∧
          (tokens file name bytes).items = tokensOf file text) ∨
        (∃ diagnostic, (tokens file name bytes).failure? = some (.program diagnostic)) ∧
          (tokens file name bytes).items = Cutting.first.completed file text) := by
  obtain ⟨text, rest, rfl, hrest⟩ := Utf8.form_reads.exists_text bytes
  refine ⟨text, rest, rfl, ?_⟩
  rcases hrest with rfl | ⟨k, flaw, hk⟩
  · obtain ⟨hitems, hread⟩ := tokens_encode hname file text
    rw [List.append_nil]
    exact .inl ⟨rfl, hread, hitems⟩
  · obtain ⟨hitems, hread⟩ := tokens_encode_breaks hname file text hk
    exact .inr ⟨⟨_, hread⟩, hitems⟩

/-- **The words that are read are the first words of the bytes.** -/
theorem items_prefix_wordsOfBytes (hname : ofName? name = some .utf8) (file : String)
    (bytes : List UInt8) :
    ((tokens file name bytes).items.map fun token => Utf8.encode token.text) <+:
      wordsOfBytes bytes := by
  obtain ⟨text, rest, rfl, hread⟩ := exists_text_of_utf8 hname file bytes
  have hcut : wordsOfBytes (Utf8.encode text ++ rest) = _ :=
    splitOnPPrepend_encode file .first text rest
  rw [hcut]
  rcases hread with ⟨rfl, -, hitems⟩ | ⟨-, hitems⟩
  · rw [hitems, tokensOf, Cutting.tokens, List.map_append, List.splitOnPPrepend_nil,
      List.reverse_reverse]
    exact List.prefix_refl _
  · rw [hitems]
    exact List.prefix_append ..

end Source

end StackAssembler

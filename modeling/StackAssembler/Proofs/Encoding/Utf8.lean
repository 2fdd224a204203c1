import StackAssembler.Encoding.Utf8
import StackAssembler.Proofs.Encoding.Code
import Mathlib.Data.List.Basic

/-!
# UTF-8 is a code

The form of UTF-8 reads the code that gives each character its one to four bytes.  `Spells` lists
the sound sequences of bytes by the ranges of their bytes; it lies between the code, which computes
the bytes from the character, and the form, which judges them one after the other.
-/

namespace StackAssembler.Encoding.Utf8

/-! ## Ranges of bytes -/

theorem isTail_iff (byte : UInt8) : isTail byte = true ↔ 0x80 ≤ byte.toNat ∧ byte.toNat ≤ 0xbf := by
  simp [isTail, UInt8.le_iff_toNat_le]

theorem admits_iff (first second : UInt8) :
    admits first second = true ↔ (0x80 ≤ second.toNat ∧ second.toNat ≤ 0xbf) ∧
      (first.toNat = 0xe0 → 0xa0 ≤ second.toNat) ∧ (first.toNat = 0xf0 → 0x90 ≤ second.toNat) ∧
      (first.toNat = 0xf4 → second.toNat < 0x90) := by
  simp only [admits, isTail_iff, Bool.and_eq_true, Bool.not_eq_true', Bool.and_eq_false_imp,
    beq_iff_eq, decide_eq_false_iff_not, UInt8.le_iff_toNat_le, UInt8.lt_iff_toNat_lt,
    ← UInt8.toNat_inj, UInt8.reduceToNat, Nat.not_lt, Nat.not_le, and_assoc]

theorem startsSurrogate_iff (first second : UInt8) :
    startsSurrogate first second = true ↔
      first.toNat = 0xed ∧ 0xa0 ≤ second.toNat ∧ second.toNat ≤ 0xbf := by
  simp [startsSurrogate, UInt8.le_iff_toNat_le, ← UInt8.toNat_inj, and_assoc]

/-! ## Sound sequences -/

/-- The bytes are those of a code point. -/
inductive Spells : List UInt8 → Nat → Prop
  | one {a : UInt8} : a.toNat < 0x80 → Spells [a] a.toNat
  | two {a b : UInt8} : 0xc2 ≤ a.toNat → a.toNat < 0xe0 → admits a b →
      Spells [a, b] (a.toNat % 0x20 * 0x40 + tailBits b)
  | three {a b c : UInt8} : 0xe0 ≤ a.toNat → a.toNat < 0xf0 → admits a b →
      ¬ startsSurrogate a b → isTail c →
      Spells [a, b, c] ((a.toNat % 0x10 * 0x40 + tailBits b) * 0x40 + tailBits c)
  | four {a b c d : UInt8} : 0xf0 ≤ a.toNat → a.toNat ≤ 0xf4 → admits a b → isTail c → isTail d →
      Spells [a, b, c, d]
        (((a.toNat % 0x08 * 0x40 + tailBits b) * 0x40 + tailBits c) * 0x40 + tailBits d)

/-- The bytes that a character is written in are its own. -/
theorem spells_encodeChar (c : Char) : Spells (String.utf8EncodeChar c) c.toNat := by
  have hv : c.toNat < 0xd800 ∨ 0xdfff < c.toNat ∧ c.toNat < 0x110000 := c.valid
  change Spells _ c.val.toNat
  change c.val.toNat < 0xd800 ∨ 0xdfff < c.val.toNat ∧ c.val.toNat < 0x110000 at hv
  generalize hn : c.val.toNat = n at hv ⊢
  unfold String.utf8EncodeChar
  rw [hn]
  have cast : ∀ {bytes : List UInt8} {m : Nat}, Spells bytes m → m = n → Spells bytes n :=
    fun h e => e ▸ h
  simp only
  split
  · refine cast (.one ?_) ?_ <;> simp only [UInt8.toNat_ofNat'] <;> omega
  split
  · refine cast (.two ?_ ?_ ?_) ?_ <;>
      simp only [admits_iff, tailBits, UInt8.toNat_ofNat'] <;> omega
  split
  · refine cast (.three ?_ ?_ ?_ ?_ ?_) ?_ <;>
      simp only [admits_iff, startsSurrogate_iff, isTail_iff, tailBits, UInt8.toNat_ofNat'] <;>
      omega
  · refine cast (.four ?_ ?_ ?_ ?_ ?_) ?_ <;>
      simp only [admits_iff, isTail_iff, tailBits, UInt8.toNat_ofNat'] <;> omega

/-- A sound sequence spells a character. -/
theorem isValidChar_of_spells {bytes : List UInt8} {n : Nat} (h : Spells bytes n) :
    n.isValidChar := by
  simp only [Nat.isValidChar]
  cases h with
  | one ha => omega
  | two ha ha' hb =>
      simp only [admits_iff] at hb
      simp only [tailBits]
      omega
  | three ha ha' hb hs hc =>
      simp only [admits_iff] at hb
      simp only [startsSurrogate_iff] at hs
      simp only [tailBits]
      omega
  | four ha ha' hb hc hd =>
      simp only [admits_iff] at hb
      simp only [tailBits]
      omega

/-- A sound sequence is what its character is written in. -/
theorem eq_encodeChar_of_spells {bytes : List UInt8} {n : Nat} (h : Spells bytes n) {c : Char}
    (hc : c.val.toNat = n) : bytes = String.utf8EncodeChar c := by
  have ofNat : ∀ {byte : UInt8} {m : Nat}, byte.toNat = m → byte = UInt8.ofNat m :=
    fun h => by rw [← h, UInt8.ofNat_toNat]
  unfold String.utf8EncodeChar
  rw [hc]
  cases h with
  | one ha => rw [if_pos (by omega), UInt8.ofNat_toNat]
  | @two a b ha ha' hb =>
      generalize hm : a.toNat % 0x20 * 0x40 + tailBits b = m
      simp only [admits_iff] at hb
      simp only [tailBits] at hm
      rw [if_neg (by omega), if_pos (by omega), ← @ofNat a _ (by omega), ← @ofNat b _ (by omega)]
  | @three a b d ha ha' hb hs hd =>
      generalize hm : (a.toNat % 0x10 * 0x40 + tailBits b) * 0x40 + tailBits d = m
      simp only [admits_iff] at hb
      simp only [isTail_iff] at hd
      simp only [tailBits] at hm
      rw [if_neg (by omega), if_neg (by omega), if_pos (by omega), ← @ofNat a _ (by omega),
        ← @ofNat b _ (by omega), ← @ofNat d _ (by omega)]
  | @four a b d e ha ha' hb hd he =>
      generalize hm :
        ((a.toNat % 0x08 * 0x40 + tailBits b) * 0x40 + tailBits d) * 0x40 + tailBits e = m
      simp only [admits_iff] at hb
      simp only [isTail_iff] at hd he
      simp only [tailBits] at hm
      rw [if_neg (by omega), if_neg (by omega), if_neg (by omega), ← @ofNat a _ (by omega),
        ← @ofNat b _ (by omega), ← @ofNat d _ (by omega), ← @ofNat e _ (by omega)]

/-! ## The verdicts on sound sequences -/

theorem judge_of_spells {bytes : List UInt8} {n : Nat} (h : Spells bytes n) :
    judge bytes = .whole [n] := by
  cases h with
  | one ha => simp [judge, UInt8.lt_iff_toNat_lt, ha]
  | two ha ha' hb => simp [judge, UInt8.lt_iff_toNat_lt, ha', hb]
  | three ha ha' hb hs hc => simp [judge, UInt8.lt_iff_toNat_lt, ha', hs, hc]
  | four ha ha' hb hc hd => simp [judge, hd]

theorem judge_one_eq_part_iff (a : UInt8) :
    judge [a] = .part ↔ 0xc2 ≤ a.toNat ∧ a.toNat ≤ 0xf4 := by
  simp only [judge, UInt8.lt_iff_toNat_lt, UInt8.le_iff_toNat_le, UInt8.reduceToNat]
  split
  · next h => exact ⟨nofun, fun h' => by omega⟩
  · split
    · next h => exact ⟨fun _ => h, fun _ => rfl⟩
    · next h => exact ⟨nofun, fun h' => absurd h' h⟩

theorem judge_two_eq_part_iff (a b : UInt8) :
    judge [a, b] = .part ↔ admits a b ∧ 0xe0 ≤ a.toNat := by
  simp only [judge, UInt8.lt_iff_toNat_lt, UInt8.reduceToNat]
  by_cases hb : admits a b = true
  · by_cases ha : a.toNat < 0xe0
    · simp [hb, ha]
    · simp [hb, ha, Nat.not_lt.1 ha]
  · simp [hb]

theorem judge_three_eq_part_iff (a b c : UInt8) :
    judge [a, b, c] = .part ↔ ¬ startsSurrogate a b ∧ isTail c ∧ 0xf0 ≤ a.toNat := by
  simp only [judge, UInt8.lt_iff_toNat_lt, UInt8.reduceToNat]
  by_cases hs : startsSurrogate a b = true
  · simp [hs]
  · by_cases hc : isTail c = true
    · by_cases ha : a.toNat < 0xf0
      · simp [hs, hc, ha]
      · simp [hs, hc, ha, Nat.not_lt.1 ha]
    · simp [hs, hc]

theorem judge_four_ne_part (a b c d : UInt8) : judge [a, b, c, d] ≠ .part := by
  simp only [judge]
  split <;> nofun

/-- Fewer bytes than a sound sequence are not refused. -/
theorem judge_prefix_of_spells {all bytes : List UInt8} {n : Nat} (h : Spells all n)
    (hne : bytes ≠ []) (hp : bytes <+: all) (hb : bytes ≠ all) : judge bytes = .part := by
  cases h with
  | @one a ha =>
      rcases bytes with _ | ⟨x, bytes⟩ <;> simp_all
  | @two a b ha ha' hab =>
      have h1 : judge [a] = .part := (judge_one_eq_part_iff a).2 (by omega)
      rcases bytes with _ | ⟨x, _ | ⟨y, bytes⟩⟩ <;> simp_all
  | @three a b c ha ha' hab hs hc =>
      have h1 : judge [a] = .part := (judge_one_eq_part_iff a).2 (by omega)
      have h2 : judge [a, b] = .part := (judge_two_eq_part_iff a b).2 ⟨hab, ha⟩
      rcases bytes with _ | ⟨x, _ | ⟨y, _ | ⟨z, bytes⟩⟩⟩ <;> simp_all
  | @four a b c d ha ha' hab hc hd =>
      have hs : ¬ startsSurrogate a b := by
        rw [startsSurrogate_iff]
        omega
      have h1 : judge [a] = .part := (judge_one_eq_part_iff a).2 (by omega)
      have h2 : judge [a, b] = .part := (judge_two_eq_part_iff a b).2 ⟨hab, by omega⟩
      have h3 : judge [a, b, c] = .part := (judge_three_eq_part_iff a b c).2 ⟨hs, hc, ha⟩
      rcases bytes with _ | ⟨x, _ | ⟨y, _ | ⟨z, _ | ⟨w, bytes⟩⟩⟩⟩ <;> simp_all

/-- What is awaiting more has at most three bytes. -/
theorem length_le_of_awaits {pending : List UInt8} (h : form.Awaits pending) :
    pending.length ≤ 3 := by
  refine h.length_le fun bytes hlength => ?_
  obtain ⟨a, b, c, d, rfl⟩ := List.length_eq_four.1 hlength
  exact judge_four_ne_part a b c d

/-- What is found complete after bytes that were awaiting more is a sound sequence. -/
theorem spells_of_judge {pending : List UInt8} {byte : UInt8} {codePoints : List Nat}
    (ha : form.Awaits pending) (h : judge (pending ++ [byte]) = .whole codePoints) :
    ∃ n, Spells (pending ++ [byte]) n ∧ codePoints = [n] := by
  have hlen := length_le_of_awaits ha
  have part : ∀ {bytes}, bytes ≠ [] → bytes <+: pending → judge bytes = .part :=
    fun hne hp => ha _ hne hp
  rcases pending with _ | ⟨a, _ | ⟨b, _ | ⟨c, _ | ⟨d, rest⟩⟩⟩⟩
  · simp only [List.nil_append, judge, UInt8.lt_iff_toNat_lt, UInt8.reduceToNat] at h
    split at h
    · next hlt =>
        cases h
        exact ⟨_, .one hlt, rfl⟩
    · split at h <;> cases h
  · have h1 := (judge_one_eq_part_iff a).1 (part (by simp) (List.prefix_refl _))
    simp only [List.cons_append, List.nil_append, judge, UInt8.lt_iff_toNat_lt,
      UInt8.reduceToNat] at h
    split at h
    · cases h
    · next hb =>
        split at h
        · next hlt =>
            cases h
            exact ⟨_, .two h1.1 hlt (by simpa using hb), rfl⟩
        · cases h
  · have h2 := (judge_two_eq_part_iff a b).1 (part (by simp) (List.prefix_refl _))
    simp only [List.cons_append, List.nil_append, judge, UInt8.lt_iff_toNat_lt,
      UInt8.reduceToNat] at h
    split at h
    · cases h
    · next hc =>
        simp only [Bool.or_eq_true, Bool.not_eq_true', not_or, Bool.not_eq_false] at hc
        split at h
        · next hlt =>
            cases h
            exact ⟨_, .three h2.2 hlt h2.1 hc.1 hc.2, rfl⟩
        · cases h
  · have h1 := (judge_one_eq_part_iff a).1 (part (by simp) ⟨[b, c], rfl⟩)
    have h2 := (judge_two_eq_part_iff a b).1 (part (by simp) ⟨[c], rfl⟩)
    have h3 := (judge_three_eq_part_iff a b c).1 (part (by simp) (List.prefix_refl _))
    simp only [List.cons_append, List.nil_append, judge] at h
    split at h
    · cases h
    · next hd =>
        cases h
        exact ⟨_, .four h3.2.2 h1.2 h2.1 h3.2.1 (by simpa using hd), rfl⟩
  · simp only [List.length_cons] at hlen
    omega

/-- **The form of UTF-8 reads the bytes that characters are written in.** -/
theorem form_reads : form.Reads String.utf8EncodeChar where
  nonempty _ := String.utf8EncodeChar_ne_nil
  whole c := judge_of_spells (spells_encodeChar c)
  part c _ hne hp hb := judge_prefix_of_spells (spells_encodeChar c) hne hp hb
  sound pending byte codePoints ha h := by
    obtain ⟨n, hs, rfl⟩ := spells_of_judge ha h
    have hn := toNat_ofNat (isValidChar_of_spells hs)
    exact ⟨Char.ofNat n, eq_encodeChar_of_spells hs hn, by rw [hn]⟩
  finish_nil := rfl
  finish_error pending hne ha := by
    rcases pending with _ | ⟨a, _ | ⟨b, _ | ⟨c, rest⟩⟩⟩
    · exact absurd rfl hne
    · exact ⟨_, rfl⟩
    · by_cases hs : startsSurrogate a b = true
      · exact ⟨.invalidContinuation, by simp [form, finish, hs]⟩
      · exact ⟨.unexpectedEnd, by simp [form, finish, hs]⟩
    · exact ⟨_, rfl⟩

/-- A break shows at most three bytes after the last character, and not after the input. -/
theorem offset_le_of_breaks {bytes : List UInt8} {k : Nat} {flaw : Flaw}
    (h : form.Breaks bytes k flaw) : k ≤ 3 ∧ k ≤ bytes.length := by
  cases h with
  | bad rest ha hj => exact ⟨length_le_of_awaits ha, by simp⟩
  | short hne ha hf => exact ⟨length_le_of_awaits ha, Nat.le_refl _⟩

/-- The encoding has its name. -/
theorem ofName?_eq : ofName? "utf-8" = some .utf8 := by decide +kernel

end StackAssembler.Encoding.Utf8

namespace StackAssembler.Source

open Encoding

/-! ## Reading UTF-8 -/

theorem characters_of_utf8 {name : String} (h : ofName? name = some .utf8) (bytes : List UInt8) :
    characters name bytes = readFrom name Utf8.form.decoder [] 0 bytes :=
  characters_of_name h bytes

theorem characters_utf8_eq (bytes : List UInt8) :
    characters "utf-8" bytes = readFrom "utf-8" Utf8.form.decoder [] 0 bytes :=
  characters_of_utf8 Utf8.ofName?_eq bytes

/-- A text is read from its bytes. -/
theorem characters_encode {name : String} (h : ofName? name = some .utf8) (text : List Char) :
    (characters name (Utf8.encode text)).items = text ∧
      (characters name (Utf8.encode text)).failure? = none := by
  rw [characters_of_utf8 h]
  exact readFrom_text Utf8.form_reads name 0 text

/-- **UTF-8 is read exactly.**  An input is read without a failure if and only if it is a text in
UTF-8, and it is read as that text.  Of any other input exactly the longest part is read that is a
text in UTF-8; the flaw that is reported shows at most three bytes after that part. -/
theorem characters_utf8_exact (bytes : List UInt8) :
    let reading := characters "utf-8" bytes
    (∀ text, reading.failure? = none ∧ reading.items = text ↔ bytes = Utf8.encode text) ∧
      ((∀ text, bytes ≠ Utf8.encode text) → ∃ offset flaw,
        reading.failure? = some (.program ⟨.malformed "utf-8" offset flaw, none⟩) ∧
        (Cause.malformed "utf-8" offset flaw).hint =
          some (String.join ["at byte offset ", toString offset, ": ", flaw.reason]) ∧
        Utf8.encode reading.items <+: bytes ∧
        (∀ text, Utf8.encode text <+: bytes →
          Utf8.encode text <+: Utf8.encode reading.items) ∧
        (Utf8.encode reading.items).length ≤ offset ∧
        offset ≤ min bytes.length ((Utf8.encode reading.items).length + 3)) := by
  intro reading
  have hr : reading = readFrom "utf-8" Utf8.form.decoder [] 0 bytes := characters_utf8_eq bytes
  refine ⟨fun text => ?_, fun hne => ?_⟩
  · rw [hr]
    exact readFrom_eq_text_iff Utf8.form_reads "utf-8" 0 bytes text
  · obtain ⟨rest, k, flaw, hb, hk, hf, hlongest⟩ :=
      readFrom_of_ne_text Utf8.form_reads "utf-8" 0 bytes hne
    rw [← hr] at hb hf hlongest
    have hoff := Utf8.offset_le_of_breaks hk
    have hlen : bytes.length = (Utf8.encode reading.items).length + rest.length := by
      rw [hb, List.length_append]
      rfl
    refine ⟨_, flaw, hf, rfl, ⟨rest, hb.symm⟩, fun text ht => ?_, ?_, ?_⟩
    · obtain ⟨more, hm⟩ := hlongest text ht
      rw [← hm]
      exact ⟨Utf8.encode more, by simp [Utf8.encode]⟩
    · change (Utf8.encode reading.items).length ≤ 0 + (Utf8.encode reading.items).length + k
      omega
    · change 0 + (Utf8.encode reading.items).length + k ≤ _
      omega

/-- A character that the end of the input cuts off is no text, and the letter before it is read. -/
theorem characters_utf8_exact_truncated :
    ∃ offset flaw, (characters "utf-8" [0x61, 0xe2, 0x82]).failure? =
        some (.program ⟨.malformed "utf-8" offset flaw, none⟩) ∧ 1 ≤ offset ∧ offset ≤ 3 := by
  have hne : ∀ text, [0x61, 0xe2, 0x82] ≠ Utf8.encode text := fun text h =>
    absurd (((characters_utf8_exact _).1 text).2 h).1 (by decide +kernel)
  have hitems : (characters "utf-8" [0x61, 0xe2, 0x82]).items = ['a'] := by decide +kernel
  obtain ⟨offset, flaw, hf, -, -, -, hlow, hhigh⟩ := (characters_utf8_exact _).2 hne
  rw [hitems] at hlow hhigh
  exact ⟨offset, flaw, hf, hlow, hhigh⟩

end StackAssembler.Source

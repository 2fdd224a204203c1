import StackAssembler.Proofs.Encoding.CodeUnits
import StackAssembler.Proofs.Encoding.Utf8

/-!
# Reading behind a mark

A decoder that looks for a mark does so in an opening phase; once the text has begun it goes on as
the decoder of a form.  So what it reads is known from the way in which the input begins: with a
mark, with a character, or with neither.

In UTF-8 an input without the mark is read as it is, but one that ends inside the mark is taken for
an empty text, although it is none.  In UTF-16 and UTF-32 an input that is not empty must begin with
a mark.  One that begins with a character instead is refused, and that refusal is no diagnostic:
it does not say that the bytes are malformed, but that there is no mark.

## Main definitions

* `Tells`: marks that tell the byte order of a form.
* `IsMarkedText`: the bytes of a text in an encoding with a mark.
* `CutsMark`, `LacksMark`: inputs that the decoders do not treat as malformed, although they are no
  text.
-/

namespace StackAssembler.Encoding

/-! ## Marks -/

/-- Marks that are told apart by a reader of the form, which calls no beginning of a mark complete
or faulty. -/
structure Tells (mark : ByteOrder → List UInt8) (form : Form) : Prop where
  ne_nil : ∀ order, mark order ≠ []
  eq_of_prefix : ∀ order other, mark order <+: mark other → order = other
  awaits : ∀ order pending, pending <+: mark order → pending ≠ mark order → form.Awaits pending

/-- One input does not begin with two marks. -/
theorem Tells.eq_of_prefixes {mark : ByteOrder → List UInt8} {form : Form} (T : Tells mark form)
    {order other : ByteOrder} {bytes : List UInt8} (h : mark order <+: bytes)
    (h' : mark other <+: bytes) : order = other := by
  rcases List.prefix_or_prefix_of_prefix h h' with hp | hp
  · exact T.eq_of_prefix order other hp
  · exact (T.eq_of_prefix other order hp).symm

theorem mark16_tells : Tells mark16 (Utf16.form .little) where
  ne_nil order := by cases order <;> decide
  eq_of_prefix order other h := by
    cases order <;> cases other <;> first | rfl | exact absurd h (by decide)
  awaits order pending hp hb := by
    intro bytes hne hbytes
    apply Utf16.judge_of_odd
    have hlength : (mark16 order).length = 2 := Utf16.length_unit order _
    have hlt : pending.length < 2 := by
      rw [← hlength]
      apply Nat.lt_of_le_of_ne hp.length_le
      intro he
      exact hb (hp.eq_of_length he)
    have hle := hbytes.length_le
    have hpos := List.length_pos_iff.2 hne
    omega

theorem mark32_tells : Tells mark32 (Utf32.form .little) where
  ne_nil order := by cases order <;> decide
  eq_of_prefix order other h := by
    cases order <;> cases other <;> first | rfl | exact absurd h (by decide)
  awaits order pending hp hb := by
    intro bytes hne hbytes
    apply Utf32.judge_of_length_ne
    have hlength : (mark32 order).length = 4 := Utf32.length_code order _
    have hlt : pending.length < 4 := by
      rw [← hlength]
      apply Nat.lt_of_le_of_ne hp.length_le
      intro he
      exact hb (hp.eq_of_length he)
    have hle := hbytes.length_le
    omega

/-! ## Texts with a mark -/

/-- The bytes are those of a text, in an encoding with a mark. -/
inductive IsMarkedText : Encoding → List UInt8 → List Char → Prop
  /-- In UTF-8 the mark may precede the text. -/
  | signed (text : List Char) : IsMarkedText .signedUtf8 (signature ++ Utf8.encode text) text
  /-- If nothing looks like the mark, all bytes are those of the text. -/
  | unsigned {text : List Char} : ¬ signature <+: Utf8.encode text →
      IsMarkedText .signedUtf8 (Utf8.encode text) text
  | empty16 : IsMarkedText .markedUtf16 [] []
  /-- The mark tells the byte order of the text. -/
  | marked16 (order : ByteOrder) (text : List Char) :
      IsMarkedText .markedUtf16 (mark16 order ++ Utf16.encode order text) text
  | empty32 : IsMarkedText .markedUtf32 [] []
  | marked32 (order : ByteOrder) (text : List Char) :
      IsMarkedText .markedUtf32 (mark32 order ++ Utf32.encode order text) text

/-- The input ends inside the mark of UTF-8. -/
def CutsMark (encoding : Encoding) (bytes : List UInt8) : Prop :=
  encoding = .signedUtf8 ∧ (bytes = [0xef] ∨ bytes = [0xef, 0xbb])

/-- The input begins with a character, in little endian, and not with a mark. -/
inductive LacksMark : Encoding → List UInt8 → Nat → Prop
  | utf16 {bytes rest : List UInt8} {c : Char} : bytes = Utf16.encodeChar .little c ++ rest →
      (∀ order, ¬ mark16 order <+: bytes) → LacksMark .markedUtf16 bytes 16
  | utf32 {bytes rest : List UInt8} {c : Char} : bytes = ByteOrder.little.bytes 4 c.toNat ++ rest →
      (∀ order, ¬ mark32 order <+: bytes) → LacksMark .markedUtf32 bytes 32

end StackAssembler.Encoding

namespace StackAssembler.Source

open Encoding

/-! ## Code units with a mark -/

section Units

variable (bits : Nat) {mark : ByteOrder → List UInt8} {form : ByteOrder → Form}
variable {pending : List UInt8} {byte : UInt8}

/-- Behind the mark the text is read in the byte order of the mark. -/
theorem readFrom_body (encoding : String) (order : ByteOrder) (pending : List UInt8) (offset : Nat)
    (bytes : List UInt8) :
    readFrom encoding (markedUnits bits mark form) (.body order pending) offset bytes =
      readFrom encoding (form order).decoder pending offset bytes := by
  let decoder := (form order).decoder
  let marked := markedUnits bits mark form
  let embed : decoder.State → marked.State := Phase.body order
  refine readFrom_of_states encoding embed ?_ (fun _ => rfl) pending offset bytes
  intro (state : List UInt8) byte
  change ((form order).advance (state ++ [byte]) >>= fun result =>
    pure (Phase.body order result.1, result.2)) = ((form order).advance (state ++ [byte])).map _
  cases (form order).advance (state ++ [byte]) <;> rfl

/-- The byte that completes a mark ends the opening. -/
theorem step_opening_mark (T : Tells mark (form .little)) {order : ByteOrder}
    (h : pending ++ [byte] = mark order) :
    (markedUnits bits mark form).step (.opening pending) byte = .ok (.body order [], []) := by
  have hne : mark .big ≠ mark .little := fun he =>
    ByteOrder.noConfusion (T.eq_of_prefix .big .little (he ▸ List.prefix_refl _))
  cases order with
  | little => exact if_pos h
  | big =>
      have hlittle : ¬ pending ++ [byte] = mark .little := fun he => hne (h.symm.trans he)
      exact (if_neg hlittle).trans (if_pos h)

/-- Another byte is judged together with those before it. -/
theorem step_opening (form : ByteOrder → Form)
    (h : ∀ order, pending ++ [byte] ≠ mark order) :
    (markedUnits bits mark form).step (.opening pending) byte =
      match (form .little).judge (pending ++ [byte]) with
      | .whole _ => .error (.missingMark bits)
      | .part => .ok (.opening (pending ++ [byte]), [])
      | .bad flaw => .error (.malformed flaw) :=
  (if_neg (h .little)).trans (if_neg (h .big))

/-- The opening goes on as long as more bytes are awaited and there is no mark. -/
theorem readFrom_opening (encoding : String) (ha : (form .little).Awaits pending)
    (hno : ∀ order, ¬ mark order <+: pending) (bytes : List UInt8) :
    readFrom encoding (markedUnits bits mark form) (.opening []) 0 (pending ++ bytes) =
      readFrom encoding (markedUnits bits mark form) (.opening pending) pending.length bytes := by
  induction pending using List.reverseRecOn generalizing bytes with
  | nil => rfl
  | append_singleton pending byte ih =>
      have ha' : (form .little).Awaits pending := fun x hne hx =>
        ha x hne (hx.trans (List.prefix_append pending [byte]))
      have hno' : ∀ order, ¬ mark order <+: pending := fun order hm =>
        hno order (hm.trans (List.prefix_append pending [byte]))
      have hne : ∀ order, pending ++ [byte] ≠ mark order := fun order he =>
        hno order (he ▸ List.prefix_refl _)
      have hpart : (form .little).judge (pending ++ [byte]) = .part :=
        ha _ (by simp) (List.prefix_refl _)
      have hstep := step_opening bits form hne
      rw [hpart] at hstep
      rw [List.append_assoc, ih ha' hno', List.singleton_append,
        readFrom_of_step_ok encoding hstep, List.length_append, List.length_singleton]
      rfl

/-- **What follows a mark is read in the byte order of the mark.** -/
theorem readFrom_mark (T : Tells mark (form .little)) (encoding : String) (order : ByteOrder)
    (bytes : List UInt8) :
    readFrom encoding (markedUnits bits mark form) (.opening []) 0 (mark order ++ bytes) =
      readFrom encoding (form order).decoder [] (mark order).length bytes := by
  obtain ⟨pending, byte, hm⟩ : ∃ pending byte, mark order = pending ++ [byte] :=
    ⟨_, _, (List.dropLast_concat_getLast (T.ne_nil order)).symm⟩
  have hp : pending <+: mark order := ⟨[byte], hm.symm⟩
  have hproper : pending ≠ mark order := by
    intro he
    simp [← he] at hm
  have hno : ∀ other, ¬ mark other <+: pending := by
    intro other hother
    obtain rfl := T.eq_of_prefix other order (hother.trans hp)
    exact hproper (hp.eq_of_length_le hother.length_le)
  rw [hm, List.append_assoc, readFrom_opening bits encoding (T.awaits order pending hp hproper) hno,
    List.singleton_append, readFrom_of_step_ok encoding (step_opening_mark bits T hm.symm),
    List.length_append, List.length_singleton]
  exact readFrom_body bits encoding order [] _ bytes

/-- An input that begins with a character and not with a mark is refused for that. -/
theorem readFrom_missing {code : Char → List UInt8} (H : (form .little).Reads code)
    (encoding : String) (c : Char) {bytes : List UInt8}
    (hno : ∀ order, ¬ mark order <+: code c ++ bytes) :
    ∃ count, readFrom encoding (markedUnits bits mark form) (.opening []) 0 (code c ++ bytes) =
      .stopped (.internal (.missingMark bits)) count := by
  obtain ⟨pending, byte, hc⟩ : ∃ pending byte, code c = pending ++ [byte] :=
    ⟨_, _, (List.dropLast_concat_getLast (H.nonempty c)).symm⟩
  have hp : pending <+: code c := ⟨[byte], hc.symm⟩
  have ha : (form .little).Awaits pending := H.awaits hp fun e => by simp [hc] at e
  have hno' : ∀ order, ¬ mark order <+: pending := fun order hm =>
    hno order ((hm.trans hp).trans (List.prefix_append ..))
  have hne : ∀ order, pending ++ [byte] ≠ mark order := fun order he =>
    hno order (he ▸ hc ▸ List.prefix_append ..)
  have hwhole : (form .little).judge (pending ++ [byte]) = .whole [c.toNat] := hc ▸ H.whole c
  have hstep := step_opening bits form hne
  rw [hwhole] at hstep
  rw [hc, List.append_assoc, readFrom_opening bits encoding ha hno', List.singleton_append,
    readFrom_of_step_error encoding hstep]
  exact ⟨_, rfl⟩

/-- An input that breaks and does not begin with a mark is refused for the break. -/
theorem readFrom_opening_breaks (encoding : String) {bytes : List UInt8} {k : Nat} {flaw : Flaw}
    (h : (form .little).Breaks bytes k flaw) (hno : ∀ order, ¬ mark order <+: bytes) :
    ∃ count, readFrom encoding (markedUnits bits mark form) (.opening []) 0 bytes =
      .stopped (.program ⟨.malformed encoding k flaw, none⟩) count := by
  cases h with
  | @bad pending byte _ rest ha hj =>
      have hno' : ∀ order, ¬ mark order <+: pending := fun order hm =>
        hno order (hm.trans (List.prefix_append ..))
      have hne : ∀ order, pending ++ [byte] ≠ mark order := by
        intro order he
        apply hno order
        rw [← he]
        exact ⟨rest, by simp⟩
      have hstep := step_opening bits form hne
      rw [hj] at hstep
      rw [readFrom_opening bits encoding ha hno', readFrom_of_step_error encoding hstep]
      exact ⟨_, rfl⟩
  | short hne ha hf =>
      have hread := readFrom_opening bits encoding ha hno []
      have hclose : (markedUnits bits mark form).finish (.opening bytes) =
          .error (.malformed flaw) := by
        change (form .little).close bytes = _
        simp only [Form.close, hf]
      rw [List.append_nil, readFrom_of_finish_error encoding hclose] at hread
      exact ⟨_, hread⟩

/-- How an input is read that does not begin with a mark: there is nothing to read, or it begins
with a character, or it breaks. -/
theorem readFrom_unmarked_cases {code : Char → List UInt8} (H : (form .little).Reads code)
    (encoding : String) {bytes : List UInt8} (hno : ∀ order, ¬ mark order <+: bytes) :
    let reading := readFrom encoding (markedUnits bits mark form) (.opening []) 0 bytes
    (bytes = [] ∧ reading = .done 0) ∨
    (∃ c rest, bytes = code c ++ rest ∧
      ∃ count, reading = .stopped (.internal (.missingMark bits)) count) ∨
    (bytes ≠ [] ∧ (∀ c rest, bytes ≠ code c ++ rest) ∧ ∃ offset flaw count,
      reading = .stopped (.program ⟨.malformed encoding offset flaw, none⟩) count) := by
  intro reading
  by_cases hempty : bytes = []
  · subst hempty
    have hclose : (markedUnits bits mark form).finish (.opening []) = .ok [] := by
      change (form .little).close [] = _
      simp only [Form.close, H.finish_nil]
    exact .inl ⟨rfl, readFrom_of_finish_ok encoding hclose 0⟩
  · right
    have hbegins := H.complete_or_breaks bytes [] (Form.awaits_nil _) hempty
    rw [List.nil_append] at hbegins
    rcases hbegins with ⟨c, rest, rfl⟩ | ⟨offset, flaw, hbreaks⟩
    · exact .inl ⟨c, rest, rfl, readFrom_missing bits H encoding c hno⟩
    · obtain ⟨count, hread⟩ := readFrom_opening_breaks bits encoding hbreaks hno
      refine .inr ⟨hempty, ?_, offset, flaw, count, hread⟩
      rintro c rest rfl
      exact absurd hbreaks H.not_breaks

/-- **Code units with a mark are read exactly.**  An input is read without a failure if and only if
it is empty or a mark with the code units of a text, in the byte order of the mark.  An input that
begins with a character instead of a mark is refused for that, and any other input for a break. -/
theorem readFrom_markedUnits {code : ByteOrder → Char → List UInt8}
    (H : ∀ order, (form order).Reads (code order)) (T : Tells mark (form .little))
    (encoding : String) (bytes : List UInt8) :
    let reading := readFrom encoding (markedUnits bits mark form) (.opening []) 0 bytes
    (∀ text, reading.failure? = none ∧ reading.items = text ↔
      (bytes = [] ∧ text = []) ∨ ∃ order, bytes = mark order ++ text.flatMap (code order)) ∧
    (reading.failure? = some (.internal (.missingMark bits)) ↔
      (∃ c rest, bytes = code .little c ++ rest) ∧ ∀ order, ¬ mark order <+: bytes) ∧
    ∀ failure, reading.failure? = some failure → failure = .internal (.missingMark bits) ∨
      ∃ offset flaw, failure = .program ⟨.malformed encoding offset flaw, none⟩ := by
  intro reading
  by_cases hmark : ∃ order, mark order <+: bytes
  · obtain ⟨order, rest, rfl⟩ := hmark
    have hread : reading = readFrom encoding (form order).decoder [] (mark order).length rest :=
      readFrom_mark bits T encoding order rest
    have hmalformed : ∀ failure, reading.failure? = some failure →
        ∃ offset flaw, failure = .program ⟨.malformed encoding offset flaw, none⟩ := by
      intro failure hf
      exact exists_malformed_of_failure (H order) encoding _ rest (hread ▸ hf)
    refine ⟨?_, ?_, fun failure hf => .inr (hmalformed failure hf)⟩
    · intro text
      rw [hread, readFrom_eq_text_iff (H order)]
      constructor
      · rintro rfl
        exact .inr ⟨order, rfl⟩
      · rintro (⟨hnil, -⟩ | ⟨other, ho⟩)
        · exact absurd (List.append_eq_nil_iff.1 hnil).1 (T.ne_nil order)
        · obtain rfl : order = other :=
            T.eq_of_prefixes (ho ▸ List.prefix_append ..) (List.prefix_append ..)
          exact List.append_cancel_left ho
    · constructor
      · intro hf
        obtain ⟨offset, flaw, h⟩ := hmalformed _ hf
        cases h
      · rintro ⟨-, hno⟩
        exact absurd (List.prefix_append ..) (hno order)
  · have hno : ∀ order, ¬ mark order <+: bytes := fun order hm => hmark ⟨order, hm⟩
    -- Without a mark only the empty input is a text, so what is read is nothing at all.
    have htext : ∀ text : List Char, ((bytes = [] ∧ text = []) ∨
        ∃ order, bytes = mark order ++ text.flatMap (code order)) ↔ bytes = [] ∧ text = [] := by
      intro text
      apply or_iff_left
      rintro ⟨order, rfl⟩
      exact hno order (List.prefix_append ..)
    simp only [htext]
    rcases readFrom_unmarked_cases bits (H .little) encoding hno with
      ⟨rfl, hread⟩ | ⟨c, rest, hc, count, hread⟩ | ⟨hne, hbegins, offset, flaw, count, hread⟩
    · rw [show reading = _ from hread]
      refine ⟨fun text => ?_, ?_, ?_⟩
      · simp only [Reading.failure?, Reading.items, true_and]
        exact eq_comm
      · constructor
        · intro hf
          cases hf
        · rintro ⟨⟨c, rest, hc⟩, -⟩
          exact absurd (List.append_eq_nil_iff.1 hc.symm).1 ((H .little).nonempty c)
      · intro failure hf
        cases hf
    · rw [show reading = _ from hread]
      have hne : bytes ≠ [] := by
        rintro rfl
        exact absurd (List.append_eq_nil_iff.1 hc.symm).1 ((H .little).nonempty c)
      refine ⟨fun text => ?_, ⟨fun _ => ⟨⟨c, rest, hc⟩, hno⟩, fun _ => rfl⟩, ?_⟩
      · simp [Reading.failure?, hne]
      · intro failure hf
        cases hf
        exact .inl rfl
    · rw [show reading = _ from hread]
      refine ⟨fun text => ?_, ?_, ?_⟩
      · simp [Reading.failure?, hne]
      · constructor
        · intro hf
          cases hf
        · rintro ⟨⟨c, rest, hc⟩, -⟩
          exact absurd hc (hbegins c rest)
      · intro failure hf
        cases hf
        exact .inr ⟨offset, flaw, rfl⟩

end Units

/-! ## UTF-8 with a mark -/

/-- The mark is a character of UTF-8. -/
theorem signature_eq : signature = String.utf8EncodeChar '\ufeff' := by decide

variable {seen : List UInt8}

/-- Behind the mark, or if there is none, the text is read as UTF-8. -/
theorem readFrom_signed_body (encoding : String) (pending : List UInt8) (offset : Nat)
    (bytes : List UInt8) :
    readFrom encoding signedUtf8Decoder (.body () pending) offset bytes =
      readFrom encoding Utf8.form.decoder pending offset bytes := by
  let decoder := Utf8.form.decoder
  let embed : decoder.State → signedUtf8Decoder.State := Phase.body ()
  refine readFrom_of_states encoding embed ?_ (fun _ => rfl) pending offset bytes
  intro (state : List UInt8) byte
  change (Utf8.form.advance (state ++ [byte]) >>= fun result =>
    pure (Phase.body () result.1, result.2)) = (Utf8.form.advance (state ++ [byte])).map _
  cases Utf8.form.advance (state ++ [byte]) <;> rfl

/-- The opening goes on inside the mark. -/
theorem step_signed_part {byte : UInt8} (hp : seen ++ [byte] <+: signature)
    (hne : seen ++ [byte] ≠ signature) :
    signedUtf8Decoder.step (.opening seen) byte = .ok (.opening (seen ++ [byte]), []) :=
  (if_neg hne).trans (if_pos (List.isPrefixOf_iff_prefix.2 hp))

/-- A byte that does not belong to the mark is judged together with those before it. -/
theorem step_signed_other {byte : UInt8} (hp : ¬ seen ++ [byte] <+: signature) :
    signedUtf8Decoder.step (.opening seen) byte =
      (Utf8.form.advance (seen ++ [byte])).map fun result => (.body () result.1, result.2) := by
  have hne : ¬ seen ++ [byte] = signature := fun he => hp (he ▸ List.prefix_refl _)
  have hnot : ¬ (seen ++ [byte]).isPrefixOf signature = true :=
    fun hb => hp (List.isPrefixOf_iff_prefix.1 hb)
  refine ((if_neg hne).trans (if_neg hnot)).trans ?_
  cases Utf8.form.advance (seen ++ [byte]) <;> rfl

/-- What follows the mark is read as UTF-8. -/
theorem readFrom_signature (encoding : String) (bytes : List UInt8) :
    readFrom encoding signedUtf8Decoder (.opening []) 0 (signature ++ bytes) =
      readFrom encoding Utf8.form.decoder [] signature.length bytes := by
  have hfirst : signedUtf8Decoder.step (.opening []) 0xef = .ok (.opening [0xef], []) := rfl
  have hsecond : signedUtf8Decoder.step (.opening [0xef]) 0xbb =
      .ok (.opening [0xef, 0xbb], []) := rfl
  have hthird : signedUtf8Decoder.step (.opening [0xef, 0xbb]) 0xbf = .ok (.body () [], []) := rfl
  change readFrom encoding signedUtf8Decoder (.opening []) 0 (0xef :: 0xbb :: 0xbf :: bytes) = _
  rw [readFrom_of_step_ok encoding hfirst, deliver, readFrom_of_step_ok encoding hsecond, deliver,
    readFrom_of_step_ok encoding hthird, deliver, readFrom_signed_body]
  rfl

/-- An input that ends inside the mark is read as an empty text. -/
theorem readFrom_cut (encoding : String) {bytes : List UInt8} (hp : seen ++ bytes <+: signature)
    (hne : seen ++ bytes ≠ signature) (offset : Nat) :
    readFrom encoding signedUtf8Decoder (.opening seen) offset bytes =
      .done (offset + bytes.length) := by
  induction bytes generalizing seen offset with
  | nil =>
      have hfinish : signedUtf8Decoder.finish (.opening seen) = .ok [] := rfl
      exact readFrom_of_finish_ok encoding hfinish offset
  | cons byte bytes ih =>
      have hassoc : seen ++ byte :: bytes = (seen ++ [byte]) ++ bytes := by simp
      rw [hassoc] at hp hne
      have hpart : seen ++ [byte] <+: signature := (List.prefix_append ..).trans hp
      have hproper : seen ++ [byte] ≠ signature := by
        intro he
        apply hne
        apply hp.eq_of_length_le
        rw [← he]
        exact (List.prefix_append ..).length_le
      rw [readFrom_of_step_ok encoding (step_signed_part hpart hproper), deliver, ih hp hne,
        List.length_cons]
      congr 1
      omega

/-- An input that neither begins with the mark nor ends inside it is read as UTF-8. -/
theorem readFrom_unsigned (encoding : String) {bytes : List UInt8} (hseen : seen <+: signature)
    (hno : ¬ signature <+: seen ++ bytes) (hcut : ¬ seen ++ bytes <+: signature) (offset : Nat) :
    readFrom encoding signedUtf8Decoder (.opening seen) offset bytes =
      readFrom encoding Utf8.form.decoder seen offset bytes := by
  induction bytes generalizing seen offset with
  | nil =>
      rw [List.append_nil] at hcut
      exact absurd hseen hcut
  | cons byte bytes ih =>
      by_cases hp : seen ++ [byte] <+: signature
      · have hassoc : seen ++ byte :: bytes = (seen ++ [byte]) ++ bytes := by simp
        rw [hassoc] at hno hcut
        have hproper : seen ++ [byte] ≠ signature := by
          intro he
          apply hno
          rw [← he]
          exact List.prefix_append ..
        have hpart : Utf8.form.judge (seen ++ [byte]) = .part := by
          rw [signature_eq] at hp hproper
          exact Utf8.form_reads.part _ _ (by simp) hp hproper
        rw [readFrom_of_step_ok encoding (step_signed_part hp hproper), deliver, ih hp hno hcut,
          readFrom_cons_part encoding hpart]
      · cases hadvance : Utf8.form.advance (seen ++ [byte]) with
        | error fault =>
            have hsigned : signedUtf8Decoder.step (.opening seen) byte = .error fault := by
              rw [step_signed_other hp, hadvance]
              rfl
            have hplain : Utf8.form.decoder.step seen byte = .error fault := hadvance
            rw [readFrom_of_step_error encoding hsigned, readFrom_of_step_error encoding hplain]
        | ok result =>
            have hsigned : signedUtf8Decoder.step (.opening seen) byte =
                .ok (.body () result.1, result.2) := by
              rw [step_signed_other hp, hadvance]
              rfl
            have hplain : Utf8.form.decoder.step seen byte = .ok result := hadvance
            rw [readFrom_of_step_ok encoding hsigned, readFrom_of_step_ok encoding hplain,
              readFrom_signed_body]

/-- No text but the empty one is a beginning of the mark. -/
theorem eq_nil_of_prefix_signature {text : List Char} (hp : Utf8.encode text <+: signature)
    (hne : Utf8.encode text ≠ signature) : text = [] := by
  cases text with
  | nil => rfl
  | cons c text =>
      have hc : String.utf8EncodeChar c <+: Utf8.encode (c :: text) := List.prefix_append ..
      have hmark : c = '\ufeff' := by
        apply Utf8.form_reads.eq_of_prefix
        rw [← signature_eq]
        exact hc.trans hp
      rw [hmark, ← signature_eq] at hc
      exact absurd (hp.eq_of_length_le (hmark ▸ hc.length_le)) hne

theorem proper_prefix_signature_iff (bytes : List UInt8) :
    bytes <+: signature ∧ bytes ≠ signature ↔
      bytes = [] ∨ bytes = [0xef] ∨ bytes = [0xef, 0xbb] := by
  constructor
  · rintro ⟨hp, hne⟩
    match bytes with
    | [] => exact .inl rfl
    | [a] => simp_all [signature]
    | [a, b] => simp_all [signature]
    | a :: b :: c :: rest => simp_all [signature]
  · rintro (rfl | rfl | rfl) <;> decide

/-- **UTF-8 with a mark is read exactly**, but for an input that ends inside the mark. -/
theorem readFrom_signedUtf8 (encoding : String) (bytes : List UInt8) :
    let reading := readFrom encoding signedUtf8Decoder (.opening []) 0 bytes
    (∀ text, reading.failure? = none ∧ reading.items = text ↔
      IsMarkedText .signedUtf8 bytes text ∨ CutsMark .signedUtf8 bytes ∧ text = []) ∧
    ∀ failure, reading.failure? = some failure →
      ∃ offset flaw, failure = .program ⟨.malformed encoding offset flaw, none⟩ := by
  intro reading
  by_cases hmark : signature <+: bytes
  · obtain ⟨rest, rfl⟩ := hmark
    have hread : reading = readFrom encoding Utf8.form.decoder [] signature.length rest :=
      readFrom_signature encoding rest
    rw [hread]
    refine ⟨fun text => ?_, fun failure => exists_malformed_of_failure Utf8.form_reads encoding _ _⟩
    rw [readFrom_eq_text_iff Utf8.form_reads]
    constructor
    · rintro rfl
      exact .inl (.signed text)
    · rintro (h | ⟨⟨-, hcut⟩, -⟩)
      · generalize hb : signature ++ rest = bytes at h
        cases h with
        | signed => exact List.append_cancel_left hb
        | unsigned hno => exact absurd (hb ▸ List.prefix_append ..) hno
      · simp [signature] at hcut
  · by_cases hcut : bytes <+: signature
    · have hne : bytes ≠ signature := fun he => hmark (he ▸ List.prefix_refl _)
      have hread : reading = .done (0 + bytes.length) := by
        rw [← List.nil_append bytes] at hcut hne
        exact readFrom_cut encoding hcut hne 0
      rw [hread]
      refine ⟨fun text => ?_, fun failure h => by cases h⟩
      have hshort := (proper_prefix_signature_iff bytes).1 ⟨hcut, hne⟩
      constructor
      · rintro ⟨-, rfl⟩
        rcases hshort with rfl | hshort
        · exact .inl (.unsigned (by decide : ¬ signature <+: Utf8.encode []))
        · exact .inr ⟨⟨rfl, hshort⟩, rfl⟩
      · intro h
        refine ⟨rfl, ?_⟩
        rcases h with h | ⟨-, rfl⟩
        · cases h with
          | signed => exact absurd (List.prefix_append ..) hmark
          | unsigned hno => exact (eq_nil_of_prefix_signature hcut hne).symm
        · rfl
    · have hread : reading = readFrom encoding Utf8.form.decoder [] 0 bytes :=
        readFrom_unsigned encoding (List.nil_prefix) hmark hcut 0
      rw [hread]
      refine ⟨fun text => ?_,
        fun failure => exists_malformed_of_failure Utf8.form_reads encoding _ _⟩
      rw [readFrom_eq_text_iff Utf8.form_reads]
      constructor
      · rintro rfl
        exact .inl (.unsigned hmark)
      · rintro (h | ⟨⟨-, hb⟩, -⟩)
        · cases h with
          | signed => exact absurd (List.prefix_append ..) hmark
          | unsigned hno => rfl
        · have hshort := (proper_prefix_signature_iff bytes).2 (.inr hb)
          exact absurd hshort.1 hcut

/-! ## All encodings with a mark -/

theorem isMarkedText_markedUtf16_iff (bytes : List UInt8) (text : List Char) :
    IsMarkedText .markedUtf16 bytes text ↔
      (bytes = [] ∧ text = []) ∨
        ∃ order, bytes = mark16 order ++ text.flatMap (Utf16.encodeChar order) := by
  constructor
  · intro h
    cases h with
    | empty16 => exact .inl ⟨rfl, rfl⟩
    | marked16 order => exact .inr ⟨order, rfl⟩
  · rintro (⟨rfl, rfl⟩ | ⟨order, rfl⟩)
    · exact .empty16
    · exact .marked16 order text

theorem isMarkedText_markedUtf32_iff (bytes : List UInt8) (text : List Char) :
    IsMarkedText .markedUtf32 bytes text ↔
      (bytes = [] ∧ text = []) ∨
        ∃ order, bytes = mark32 order ++ text.flatMap fun c => order.bytes 4 c.toNat := by
  constructor
  · intro h
    cases h with
    | empty32 => exact .inl ⟨rfl, rfl⟩
    | marked32 order => exact .inr ⟨order, rfl⟩
  · rintro (⟨rfl, rfl⟩ | ⟨order, rfl⟩)
    · exact .empty32
    · exact .marked32 order text

/-- How each decoder that looks for a mark reads an input. -/
theorem readFrom_marked {encoding : Encoding}
    (hmarked : encoding = .signedUtf8 ∨ encoding = .markedUtf16 ∨ encoding = .markedUtf32)
    (name : String) (bytes : List UInt8) :
    let reading := readFrom name encoding.decoder encoding.decoder.start 0 bytes
    (∀ text, reading.failure? = none ∧ reading.items = text ↔
      IsMarkedText encoding bytes text ∨ CutsMark encoding bytes ∧ text = []) ∧
    (∀ bits, reading.failure? = some (.internal (.missingMark bits)) ↔
      LacksMark encoding bytes bits) ∧
    ∀ failure, reading.failure? = some failure →
      (∃ bits, failure = .internal (.missingMark bits)) ∨
        ∃ offset flaw, failure = .program ⟨.malformed name offset flaw, none⟩ := by
  intro reading
  rcases hmarked with rfl | rfl | rfl
  · obtain ⟨htext, hfailure⟩ := readFrom_signedUtf8 name bytes
    refine ⟨htext, fun bits => ⟨fun hf => ?_, nofun⟩, fun failure hf => .inr (hfailure _ hf)⟩
    obtain ⟨offset, flaw, h⟩ := hfailure _ hf
    cases h
  · obtain ⟨htext, hmissing, hfailure⟩ := readFrom_markedUnits 16 Utf16.form_reads
      mark16_tells name bytes
    refine ⟨fun text => ?_, fun bits => ⟨fun hf => ?_, ?_⟩, fun failure hf =>
      (hfailure failure hf).imp_left fun h => ⟨16, h⟩⟩
    · have hcut : ¬ CutsMark .markedUtf16 bytes := fun h => by cases h.1
      rw [isMarkedText_markedUtf16_iff]
      simp only [hcut, false_and, or_false]
      exact htext text
    · obtain rfl : bits = 16 := by
        rcases hfailure _ hf with h | ⟨offset, flaw, h⟩ <;> cases h
        rfl
      obtain ⟨⟨c, rest, hc⟩, hno⟩ := hmissing.1 hf
      exact .utf16 hc hno
    · intro h
      cases h with
      | utf16 hc hno => exact hmissing.2 ⟨⟨_, _, hc⟩, hno⟩
  · obtain ⟨htext, hmissing, hfailure⟩ := readFrom_markedUnits 32 Utf32.form_reads
      mark32_tells name bytes
    refine ⟨fun text => ?_, fun bits => ⟨fun hf => ?_, ?_⟩, fun failure hf =>
      (hfailure failure hf).imp_left fun h => ⟨32, h⟩⟩
    · have hcut : ¬ CutsMark .markedUtf32 bytes := fun h => by cases h.1
      rw [isMarkedText_markedUtf32_iff]
      simp only [hcut, false_and, or_false]
      exact htext text
    · obtain rfl : bits = 32 := by
        rcases hfailure _ hf with h | ⟨offset, flaw, h⟩ <;> cases h
        rfl
      obtain ⟨⟨c, rest, hc⟩, hno⟩ := hmissing.1 hf
      exact .utf32 hc hno
    · intro h
      cases h with
      | utf32 hc hno => exact hmissing.2 ⟨⟨_, _, hc⟩, hno⟩

/-- **In an encoding with a mark exactly the texts are read**, apart from an input that ends inside
the mark of UTF-8: that is read as the empty text.  In UTF-16 and UTF-32 an input that begins with a
character and not with a mark is an internal failure; every other input that is no text is
malformed. -/
theorem characters_marked_exact (name : String) (encoding : Encoding)
    (hname : ofName? name = some encoding)
    (hmarked : encoding = .signedUtf8 ∨ encoding = .markedUtf16 ∨ encoding = .markedUtf32)
    (bytes : List UInt8) :
    let reading := characters name bytes
    (∀ text, reading.failure? = none ∧ reading.items = text ↔
      IsMarkedText encoding bytes text ∨ CutsMark encoding bytes ∧ text = []) ∧
    (∀ bits, reading.failure? = some (.internal (.missingMark bits)) ↔
      LacksMark encoding bytes bits) ∧
    ((∀ text, ¬ IsMarkedText encoding bytes text) → ¬ CutsMark encoding bytes →
      (∀ bits, ¬ LacksMark encoding bytes bits) → ∃ offset flaw,
        reading.failure? = some (.program ⟨.malformed name offset flaw, none⟩)) := by
  intro reading
  obtain ⟨htext, hmissing, hfailure⟩ := readFrom_marked hmarked name bytes
  rw [← characters_of_name hname] at htext hmissing hfailure
  refine ⟨htext, hmissing, fun hnone hcut hlacks => ?_⟩
  cases hf : reading.failure? with
  | none =>
      rcases (htext reading.items).1 ⟨hf, rfl⟩ with h | ⟨h, -⟩
      · exact absurd h (hnone _)
      · exact absurd h hcut
  | some failure =>
      rcases hfailure failure hf with ⟨bits, rfl⟩ | ⟨offset, flaw, rfl⟩
      · exact absurd ((hmissing bits).1 hf) (hlacks bits)
      · exact ⟨offset, flaw, rfl⟩

/-- A text in UTF-16 whose mark says that it is big endian, and an input that ends inside a mark of
UTF-32. -/
theorem characters_marked_exact_big :
    ofName? "utf-16" = some .markedUtf16 ∧
      (characters "utf-16" [0xfe, 0xff, 0xd8, 0x3d, 0xde, 0x00]).items = ['😀'] ∧
      ofName? "utf-32" = some .markedUtf32 ∧ ∃ offset flaw,
        (characters "utf-32" [0xff, 0xfe, 0x00]).failure? =
          some (.program ⟨.malformed "utf-32" offset flaw, none⟩) := by
  have hname16 : ofName? "utf-16" = some .markedUtf16 := by decide +kernel
  have hname32 : ofName? "utf-32" = some .markedUtf32 := by decide +kernel
  have hmark : [0xfe, 0xff, 0xd8, 0x3d, 0xde, 0x00] =
      mark16 .big ++ Utf16.encode .big ['😀'] := by decide +kernel
  have htext : IsMarkedText .markedUtf16 [0xfe, 0xff, 0xd8, 0x3d, 0xde, 0x00] ['😀'] :=
    hmark ▸ .marked16 .big ['😀']
  obtain ⟨hitems, -, -⟩ := characters_marked_exact "utf-16" _ hname16 (.inr (.inl rfl)) _
  obtain ⟨hcut, hmissing, hmalformed⟩ :=
    characters_marked_exact "utf-32" _ hname32 (.inr (.inr rfl)) [0xff, 0xfe, 0x00]
  have hfailure : (characters "utf-32" [0xff, 0xfe, 0x00]).failure? =
      some (.program ⟨.malformed "utf-32" 3 .truncatedUnit, none⟩) := by decide +kernel
  have hfails : (characters "utf-32" [0xff, 0xfe, 0x00]).failure? ≠ none := by
    rw [hfailure]
    exact Option.some_ne_none _
  refine ⟨hname16, ((hitems _).2 (.inl htext)).2, hname32, hmalformed ?_ ?_ ?_⟩
  · intro text h
    exact hfails ((hcut text).2 (.inl h)).1
  · intro h
    exact hfails ((hcut []).2 (.inr ⟨h, rfl⟩)).1
  · intro bits h
    have hinternal := (hmissing bits).2 h
    rw [hfailure] at hinternal
    cases hinternal

/-- The letter `a` in UTF-16 without a mark is no text, and is not reported as malformed; nor is
the first byte of the mark of UTF-8, which is no text either. -/
theorem characters_unmarked :
    (characters "utf-16" [0x61, 0x00]).failure? = some (.internal (.missingMark 16)) ∧
      (∀ text, ¬ IsMarkedText .markedUtf16 [0x61, 0x00] text) ∧
      (characters "utf-8-sig" [0xef]).failure? = none ∧
      ∀ text, ¬ IsMarkedText .signedUtf8 [0xef] text := by
  refine ⟨by decide +kernel, ?_, by decide +kernel, ?_⟩
  · intro text h
    rcases (isMarkedText_markedUtf16_iff _ text).1 h with ⟨hnil, -⟩ | ⟨order, ho⟩
    · cases hnil
    · have hmark : mark16 order <+: [0x61, 0x00] := ho ▸ List.prefix_append ..
      revert hmark
      cases order <;> decide
  · intro text h
    generalize hb : ([0xef] : List UInt8) = bytes at h
    cases h with
    | signed text => simp [signature] at hb
    | unsigned hno =>
        have hp : Utf8.encode text <+: signature := hb ▸ by decide
        have hne : Utf8.encode text ≠ signature := hb ▸ by decide
        have hempty := eq_nil_of_prefix_signature hp hne
        rw [hempty] at hb
        cases hb

end StackAssembler.Source

import StackAssembler.Source.CodePoints
import Mathlib.Data.List.Induction
import Mathlib.Tactic.Common

/-!
# Reading a code

An encoding gives every character a string of bytes.  A form *reads* such a code if it calls the
bytes of a character complete, and no part of them, and if it calls nothing else complete.  Whatever
reads a code reads every text back from its bytes, and takes exactly the longest sound part of any
other input.

## Main definitions

* `Form.Awaits`: the bytes since the last complete character, as long as more are awaited.
* `Form.Reads`: a form reads a code.
* `Form.Breaks`: an input that does not begin with a character, and where that shows.
-/

namespace StackAssembler.Encoding

/-- A valid code point is the number of its character. -/
theorem toNat_ofNat {n : Nat} (h : n.isValidChar) : (Char.ofNat n).toNat = n := by
  rw [Char.ofNat, dif_pos h]
  rfl

namespace Form

/-- More bytes have been awaited after each of these. -/
def Awaits (form : Form) (pending : List UInt8) : Prop :=
  ∀ bytes, bytes ≠ [] → bytes <+: pending → form.judge bytes = .part

/-- The form takes the bytes of a character for the character, and nothing else for anything. -/
structure Reads (form : Form) (code : Char → List UInt8) : Prop where
  /-- A character takes at least one byte. -/
  nonempty : ∀ c, code c ≠ []
  /-- All bytes of a character together are complete. -/
  whole : ∀ c, form.judge (code c) = .whole [c.toNat]
  /-- Fewer bytes of a character are not. -/
  part : ∀ c bytes, bytes ≠ [] → bytes <+: code c → bytes ≠ code c → form.judge bytes = .part
  /-- What is complete is a character. -/
  sound : ∀ pending byte codePoints, form.Awaits pending →
    form.judge (pending ++ [byte]) = .whole codePoints →
    ∃ c, pending ++ [byte] = code c ∧ codePoints = [c.toNat]
  /-- The input may end between characters. -/
  finish_nil : form.finish [] = .ok []
  /-- The input may not end inside a character. -/
  finish_error : ∀ pending, pending ≠ [] → form.Awaits pending →
    ∃ flaw, form.finish pending = .error flaw

/-- The input does not begin with a character, which shows as a flaw at an offset: with a byte that
cannot go on, or with the end of the input. -/
inductive Breaks (form : Form) : List UInt8 → Nat → Flaw → Prop
  /-- A byte cannot go on what has begun. -/
  | bad {pending : List UInt8} {byte : UInt8} {flaw : Flaw} (rest : List UInt8) :
      form.Awaits pending → form.judge (pending ++ [byte]) = .bad flaw →
      Breaks form (pending ++ byte :: rest) pending.length flaw
  /-- The input ends inside a character. -/
  | short {pending : List UInt8} {flaw : Flaw} :
      pending ≠ [] → form.Awaits pending → form.finish pending = .error flaw →
      Breaks form pending pending.length flaw

/-! ## What has begun -/

theorem awaits_nil (form : Form) : form.Awaits [] :=
  fun _ hne h => absurd (List.prefix_nil.1 h) hne

theorem Awaits.concat {form : Form} {pending : List UInt8} {byte : UInt8}
    (h : form.Awaits pending) (hp : form.judge (pending ++ [byte]) = .part) :
    form.Awaits (pending ++ [byte]) := by
  intro bytes hne hb
  rcases List.prefix_concat_iff.1 hb with rfl | hb
  · exact hp
  · exact h bytes hne hb

variable {form : Form} {code : Char → List UInt8}

/-- No more bytes are awaiting others than there are without a verdict. -/
theorem Awaits.length_le {pending : List UInt8} {count : Nat} (h : form.Awaits pending)
    (hjudge : ∀ bytes, bytes.length = count + 1 → form.judge bytes ≠ .part) :
    pending.length ≤ count := by
  by_contra hlong
  have hlength : (pending.take (count + 1)).length = count + 1 := by
    rw [List.length_take]
    omega
  have hne := List.ne_nil_of_length_eq_add_one hlength
  exact hjudge _ hlength (h _ hne (List.take_prefix ..))

/-- Bytes of a character that are not all of them are awaiting the others. -/
theorem Reads.awaits (H : form.Reads code) {c : Char} {pending : List UInt8}
    (h : pending <+: code c) (hne : pending ≠ code c) : form.Awaits pending := by
  intro bytes hb hp
  refine H.part c bytes hb (hp.trans h) fun e => hne ?_
  exact h.eq_of_length_le (e ▸ hp.length_le)

/-- All bytes of a character are not awaiting any. -/
theorem Reads.not_awaits (H : form.Reads code) {c : Char} {pending : List UInt8}
    (h : code c <+: pending) : ¬ form.Awaits pending := by
  intro ha
  have hp := ha (code c) (H.nonempty c) h
  rw [H.whole c] at hp
  cases hp

/-- **No character begins another one.** -/
theorem Reads.eq_of_prefix (H : form.Reads code) {c d : Char} (h : code c <+: code d) : c = d := by
  have hcd : code c = code d := by
    by_contra hne
    have hp := H.part d (code c) (H.nonempty c) h hne
    rw [H.whole c] at hp
    cases hp
  have hw : Verdict.whole [c.toNat] = .whole [d.toNat] := by rw [← H.whole c, hcd, H.whole d]
  simp only [Verdict.whole.injEq, List.cons.injEq, and_true] at hw
  exact Char.toNat_inj.1 hw

theorem Breaks.ne_nil {bytes : List UInt8} {k : Nat} {flaw : Flaw} (h : form.Breaks bytes k flaw) :
    bytes ≠ [] := by
  cases h with
  | bad rest ha hj => simp
  | short hne ha hf => exact hne

/-- A byte that cannot go on what has begun cannot do so whatever comes after it. -/
theorem Breaks.append {bytes : List UInt8} {k : Nat} {flaw : Flaw} (h : form.Breaks bytes k flaw)
    (hk : k < bytes.length) (more : List UInt8) : form.Breaks (bytes ++ more) k flaw := by
  cases h with
  | bad rest ha hj =>
      rw [List.append_assoc, List.cons_append]
      exact .bad (rest ++ more) ha hj
  | short => exact absurd hk (Nat.lt_irrefl _)

/-! ## Taking an input apart -/

/-- An input that goes on what has begun completes a character or breaks. -/
theorem Reads.complete_or_breaks (H : form.Reads code) (bytes pending : List UInt8)
    (ha : form.Awaits pending) (hne : pending ++ bytes ≠ []) :
    (∃ c rest, pending ++ bytes = code c ++ rest) ∨
      ∃ k flaw, form.Breaks (pending ++ bytes) k flaw := by
  induction bytes generalizing pending with
  | nil =>
      rw [List.append_nil] at hne ⊢
      obtain ⟨flaw, hf⟩ := H.finish_error pending hne ha
      exact .inr ⟨_, flaw, .short hne ha hf⟩
  | cons byte rest ih =>
      cases hj : form.judge (pending ++ [byte]) with
      | whole codePoints =>
          obtain ⟨c, hc, -⟩ := H.sound pending byte codePoints ha hj
          exact .inl ⟨c, rest, by rw [← hc, List.append_assoc]; rfl⟩
      | part =>
          have hr := ih (pending ++ [byte]) (ha.concat hj) (by simp)
          simpa only [List.append_assoc, List.singleton_append] using hr
      | bad flaw => exact .inr ⟨_, flaw, .bad rest ha hj⟩

/-- What begins with a character does not break. -/
theorem Reads.not_breaks (H : form.Reads code) {c : Char} {rest : List UInt8} {k : Nat}
    {flaw : Flaw} : ¬ form.Breaks (code c ++ rest) k flaw := by
  intro h
  generalize hb : code c ++ rest = bytes at h
  have hc : code c <+: bytes := ⟨rest, hb⟩
  cases h with
  | @bad pending byte _ tail ha hj =>
      have hp : pending ++ [byte] <+: pending ++ byte :: tail :=
        (List.prefix_append_right_inj pending).2 ⟨tail, rfl⟩
      rcases List.prefix_or_prefix_of_prefix hc hp with hle | hle
      · rcases List.prefix_concat_iff.1 hle with heq | hle
        · rw [← heq, H.whole c] at hj
          cases hj
        · exact H.not_awaits hle ha
      · by_cases heq : pending ++ [byte] = code c
        · rw [heq, H.whole c] at hj
          cases hj
        · rw [H.part c _ (by simp) hle heq] at hj
          cases hj
  | short hne ha hf => exact H.not_awaits hc ha

/-- Every input is the bytes of a text, or such bytes and a rest that breaks. -/
theorem Reads.exists_text (H : form.Reads code) (bytes : List UInt8) :
    ∃ (text : List Char) (rest : List UInt8), bytes = text.flatMap code ++ rest ∧
      (rest = [] ∨ ∃ k flaw, form.Breaks rest k flaw) := by
  induction hn : bytes.length using Nat.strongRecOn generalizing bytes with
  | _ n ih =>
    by_cases hb : bytes = []
    · exact ⟨[], [], by simp [hb], .inl rfl⟩
    rcases H.complete_or_breaks bytes [] (awaits_nil form) hb with ⟨c, rest, hc⟩ | hk
    · have hpos : 0 < (code c).length := List.length_pos_iff.2 (H.nonempty c)
      have hlt : rest.length < n := by
        rw [← hn, ← List.nil_append bytes, hc, List.length_append]
        omega
      obtain ⟨text, tail, ht, hbreak⟩ := ih rest.length hlt rest rfl
      refine ⟨c :: text, tail, ?_, hbreak⟩
      rw [List.flatMap_cons, List.append_assoc, ← ht, ← hc, List.nil_append]
    · exact ⟨[], bytes, rfl, .inr hk⟩

/-- **A text goes on as long as characters do**: any text whose bytes begin an input begins the text
before a rest that begins with no character. -/
theorem Reads.prefix_of_rest (H : form.Reads code) {text other : List Char} {rest : List UInt8}
    (hrest : ∀ c, ¬ code c <+: rest) (h : other.flatMap code <+: text.flatMap code ++ rest) :
    other <+: text := by
  induction other generalizing text with
  | nil => exact List.nil_prefix
  | cons d other ih =>
      rw [List.flatMap_cons] at h
      have hd := (List.prefix_append (code d) (other.flatMap code)).trans h
      cases text with
      | nil => exact absurd hd (hrest d)
      | cons c text =>
          rw [List.flatMap_cons, List.append_assoc] at h hd
          have hdc : d = c := by
            rcases List.prefix_or_prefix_of_prefix hd (List.prefix_append (code c) _) with hp | hp
            · exact H.eq_of_prefix hp
            · exact (H.eq_of_prefix hp).symm
          subst hdc
          have ho := ih ((List.prefix_append_right_inj (code d)).1 h)
          exact (List.cons_prefix_cons).2 ⟨rfl, ho⟩

/-- Before an input breaks it holds no more than it has been read for. -/
theorem Reads.prefix_of_breaks (H : form.Reads code) {text other : List Char} {rest : List UInt8}
    {k : Nat} {flaw : Flaw} (hk : form.Breaks rest k flaw)
    (h : other.flatMap code <+: text.flatMap code ++ rest) : other <+: text := by
  refine H.prefix_of_rest (fun c hc => ?_) h
  obtain ⟨tail, rfl⟩ := hc
  exact H.not_breaks hk

/-- Of the texts whose bytes begin the bytes of a text, that text is the longest. -/
theorem Reads.prefix_of_whole (H : form.Reads code) {text other : List Char}
    (h : other.flatMap code <+: text.flatMap code) : other <+: text := by
  rw [← List.append_nil (text.flatMap code)] at h
  exact H.prefix_of_rest (fun c hc => H.nonempty c (List.prefix_nil.1 hc)) h

end Form

end StackAssembler.Encoding

namespace StackAssembler.Source

open Encoding

variable {form : Form} {code : Char → List UInt8}

/-! ## Reading -/

/-- Bytes in the encoding of a name are read by the decoder of the encoding. -/
theorem characters_of_name {name : String} {encoding : Encoding} (h : ofName? name = some encoding)
    (bytes : List UInt8) :
    characters name bytes = readFrom name encoding.decoder encoding.decoder.start 0 bytes := by
  simp only [characters, scheme, h]

section Decoders

variable {decoder : Decoder} {state next : decoder.State} {byte : UInt8} {codePoints : List Nat}
variable {fault : Fault}

/-- A byte that is taken is read, and what it completes is handed out. -/
theorem readFrom_of_step_ok (encoding : String)
    (h : decoder.step state byte = .ok (next, codePoints))
    (offset : Nat) (bytes : List UInt8) :
    readFrom encoding decoder state offset (byte :: bytes) =
      deliver offset (offset + 1) (readFrom encoding decoder next (offset + 1) bytes)
        codePoints := by
  simp only [readFrom, h]

/-- A byte that is refused is the last one read. -/
theorem readFrom_of_step_error (encoding : String) (h : decoder.step state byte = .error fault)
    (offset : Nat) (bytes : List UInt8) :
    readFrom encoding decoder state offset (byte :: bytes) =
      .stopped (decodingFailure encoding offset fault) (offset + 1) := by
  simp only [readFrom, h]

theorem readFrom_of_finish_ok (encoding : String) (h : decoder.finish state = .ok codePoints)
    (offset : Nat) :
    readFrom encoding decoder state offset [] =
      deliver offset offset (.done offset) codePoints := by
  simp only [readFrom, h]

theorem readFrom_of_finish_error (encoding : String) (h : decoder.finish state = .error fault)
    (offset : Nat) :
    readFrom encoding decoder state offset [] =
      .stopped (decodingFailure encoding offset fault) offset := by
  simp only [readFrom, h]

/-- A decoder that goes through the states of another one reads what that reads. -/
theorem readFrom_of_states {other : Decoder} (encoding : String)
    (embed : other.State → decoder.State)
    (hstep : ∀ state byte, decoder.step (embed state) byte =
      (other.step state byte).map fun result => (embed result.1, result.2))
    (hfinish : ∀ state, decoder.finish (embed state) = other.finish state)
    (state : other.State) (offset : Nat) (bytes : List UInt8) :
    readFrom encoding decoder (embed state) offset bytes =
      readFrom encoding other state offset bytes := by
  induction bytes generalizing state offset with
  | nil => simp only [readFrom, hfinish]
  | cons byte bytes ih =>
      simp only [readFrom, hstep]
      cases other.step state byte with
      | error fault => rfl
      | ok result => simp only [Except.map, ih]

end Decoders

theorem readFrom_cons_part (encoding : String) {pending : List UInt8} {byte : UInt8}
    (h : form.judge (pending ++ [byte]) = .part) (offset : Nat) (bytes : List UInt8) :
    readFrom encoding form.decoder pending offset (byte :: bytes) =
      readFrom encoding form.decoder (pending ++ [byte]) (offset + 1) bytes := by
  have hs : form.decoder.step pending byte = .ok (pending ++ [byte], []) := by
    simp only [Form.decoder, Form.advance, h]
  simp only [readFrom, hs, deliver]

theorem readFrom_cons_whole (encoding : String) {pending : List UInt8} {byte : UInt8} {c : Char}
    (h : form.judge (pending ++ [byte]) = .whole [c.toNat]) (offset : Nat) (bytes : List UInt8) :
    readFrom encoding form.decoder pending offset (byte :: bytes) =
      .next c (offset + 1) (readFrom encoding form.decoder [] (offset + 1) bytes) := by
  have hs : form.decoder.step pending byte = .ok ([], [c.toNat]) := by
    simp only [Form.decoder, Form.advance, h]
  have hc : c.toNat.isValidChar := c.valid
  simp only [readFrom, hs, deliver, if_pos hc, Char.ofNat_toNat]

theorem readFrom_cons_bad (encoding : String) {pending : List UInt8} {byte : UInt8} {flaw : Flaw}
    (h : form.judge (pending ++ [byte]) = .bad flaw) (offset : Nat) (bytes : List UInt8) :
    readFrom encoding form.decoder pending offset (byte :: bytes) =
      .stopped (decodingFailure encoding offset (.malformed flaw)) (offset + 1) := by
  have hs : form.decoder.step pending byte = .error (.malformed flaw) := by
    simp only [Form.decoder, Form.advance, h]
  simp only [readFrom, hs]

theorem readFrom_nil_ok (encoding : String) (h : form.finish [] = .ok []) (offset : Nat) :
    readFrom encoding form.decoder [] offset [] = .done offset := by
  have hf : form.decoder.finish [] = .ok [] := by simp only [Form.decoder, Form.close, h]
  simp only [readFrom, hf, deliver]

theorem readFrom_nil_error (encoding : String) {pending : List UInt8} {flaw : Flaw}
    (h : form.finish pending = .error flaw) (offset : Nat) :
    readFrom encoding form.decoder pending offset [] =
      .stopped (decodingFailure encoding offset (.malformed flaw)) offset := by
  have hf : form.decoder.finish pending = .error (.malformed flaw) := by
    simp only [Form.decoder, Form.close, h]
  simp only [readFrom, hf]

/-- Bytes that are awaiting more are read without anything being handed out. -/
theorem readFrom_awaits (encoding : String) {pending : List UInt8} (h : form.Awaits pending)
    (offset : Nat) (bytes : List UInt8) :
    readFrom encoding form.decoder [] offset (pending ++ bytes) =
      readFrom encoding form.decoder pending (offset + pending.length) bytes := by
  induction pending using List.reverseRecOn generalizing bytes with
  | nil => rfl
  | append_singleton pending byte ih =>
      have ha : form.Awaits pending :=
        fun x hne hx => h x hne (hx.trans (List.prefix_append pending [byte]))
      have hj : form.judge (pending ++ [byte]) = .part := h _ (by simp) (List.prefix_refl _)
      rw [List.append_assoc, ih ha, List.singleton_append, readFrom_cons_part encoding hj,
        List.length_append, List.length_singleton, Nat.add_assoc]

/-- A character is handed out with its last byte. -/
theorem readFrom_code (H : form.Reads code) (encoding : String) (c : Char) (offset : Nat)
    (bytes : List UInt8) :
    readFrom encoding form.decoder [] offset (code c ++ bytes) =
      .next c (offset + (code c).length)
        (readFrom encoding form.decoder [] (offset + (code c).length) bytes) := by
  obtain ⟨pending, byte, hc⟩ : ∃ pending byte, code c = pending ++ [byte] :=
    ⟨_, _, (List.dropLast_concat_getLast (H.nonempty c)).symm⟩
  have hp : pending <+: code c := ⟨[byte], hc.symm⟩
  have ha : form.Awaits pending := H.awaits hp fun e => by simp [hc] at e
  have hw : form.judge (pending ++ [byte]) = .whole [c.toNat] := hc ▸ H.whole c
  rw [hc, List.append_assoc, readFrom_awaits encoding ha, List.singleton_append,
    readFrom_cons_whole encoding hw, List.length_append, List.length_singleton, Nat.add_assoc]

/-- **A text is read back from its bytes**, whatever follows them. -/
theorem items_readFrom_append (H : form.Reads code) (encoding : String) (text : List Char)
    (offset : Nat) (bytes : List UInt8) :
    (readFrom encoding form.decoder [] offset (text.flatMap code ++ bytes)).items = text ++
      (readFrom encoding form.decoder [] (offset + (text.flatMap code).length) bytes).items := by
  induction text generalizing offset with
  | nil => rfl
  | cons c text ih =>
      rw [List.flatMap_cons, List.append_assoc, readFrom_code H, Reading.items, ih,
        List.length_append, Nat.add_assoc]
      rfl

theorem failure?_readFrom_append (H : form.Reads code) (encoding : String) (text : List Char)
    (offset : Nat) (bytes : List UInt8) :
    (readFrom encoding form.decoder [] offset (text.flatMap code ++ bytes)).failure? =
      (readFrom encoding form.decoder [] (offset + (text.flatMap code).length) bytes).failure? := by
  induction text generalizing offset with
  | nil => rfl
  | cons c text ih =>
      rw [List.flatMap_cons, List.append_assoc, readFrom_code H, Reading.failure?, ih,
        List.length_append, Nat.add_assoc]

/-- An input that breaks is read up to the offset of the break, and nothing is handed out. -/
theorem readFrom_breaks (encoding : String) {bytes : List UInt8} {k : Nat} {flaw : Flaw}
    (h : form.Breaks bytes k flaw) (offset : Nat) :
    ∃ count, readFrom encoding form.decoder [] offset bytes =
      .stopped (decodingFailure encoding (offset + k) (.malformed flaw)) count := by
  cases h with
  | bad rest ha hj =>
      rw [readFrom_awaits encoding ha, readFrom_cons_bad encoding hj]
      exact ⟨_, rfl⟩
  | short hne ha hf =>
      have h := readFrom_awaits encoding ha offset []
      rw [List.append_nil, readFrom_nil_error encoding hf] at h
      exact ⟨_, h⟩

/-- A text is read from its bytes, and nothing else is read from them. -/
theorem readFrom_text (H : form.Reads code) (encoding : String) (offset : Nat) (text : List Char) :
    (readFrom encoding form.decoder [] offset (text.flatMap code)).items = text ∧
      (readFrom encoding form.decoder [] offset (text.flatMap code)).failure? = none := by
  have hi := items_readFrom_append H encoding text offset []
  have hf := failure?_readFrom_append H encoding text offset []
  rw [List.append_nil, readFrom_nil_ok encoding H.finish_nil] at hi hf
  exact ⟨by simpa [Reading.items] using hi, hf⟩

/-- The text before a break is read, and then the break is reported. -/
theorem readFrom_text_breaks (H : form.Reads code) (encoding : String) (offset : Nat)
    (text : List Char) {rest : List UInt8} {k : Nat} {flaw : Flaw} (hk : form.Breaks rest k flaw) :
    (readFrom encoding form.decoder [] offset (text.flatMap code ++ rest)).items = text ∧
      (readFrom encoding form.decoder [] offset (text.flatMap code ++ rest)).failure? =
        some (decodingFailure encoding (offset + (text.flatMap code).length + k)
          (.malformed flaw)) := by
  obtain ⟨count, hr⟩ := readFrom_breaks encoding hk (offset + (text.flatMap code).length)
  rw [items_readFrom_append H, failure?_readFrom_append H, hr]
  exact ⟨List.append_nil text, rfl⟩

/-- **What is read without a failure is a text, and every text is.** -/
theorem readFrom_eq_text_iff (H : form.Reads code) (encoding : String) (offset : Nat)
    (bytes : List UInt8) (text : List Char) :
    (readFrom encoding form.decoder [] offset bytes).failure? = none ∧
      (readFrom encoding form.decoder [] offset bytes).items = text ↔
        bytes = text.flatMap code := by
  constructor
  · rintro ⟨hf, hi⟩
    obtain ⟨other, rest, rfl, rfl | ⟨k, flaw, hk⟩⟩ := H.exists_text bytes
    · rw [List.append_nil] at hi ⊢
      rw [← hi, (readFrom_text H encoding offset other).1]
    · rw [(readFrom_text_breaks H encoding offset other hk).2] at hf
      cases hf
  · rintro rfl
    exact (readFrom_text H encoding offset text).symm

/-- **What is no text is read up to where it breaks**, and that is as far as any text in it goes. -/
theorem readFrom_of_ne_text (H : form.Reads code) (encoding : String) (offset : Nat)
    (bytes : List UInt8) (hne : ∀ text : List Char, bytes ≠ text.flatMap code) :
    let reading := readFrom encoding form.decoder [] offset bytes
    ∃ rest k flaw, bytes = reading.items.flatMap code ++ rest ∧ form.Breaks rest k flaw ∧
      reading.failure? = some (decodingFailure encoding
        (offset + (reading.items.flatMap code).length + k) (.malformed flaw)) ∧
      ∀ other : List Char, other.flatMap code <+: bytes → other <+: reading.items := by
  intro reading
  obtain ⟨text, rest, hb, rfl | ⟨k, flaw, hk⟩⟩ := H.exists_text bytes
  · exact absurd (by rw [hb, List.append_nil]) (hne text)
  · obtain ⟨hi, hf⟩ := readFrom_text_breaks H encoding offset text hk
    rw [← hb] at hi hf
    change reading.items = text at hi
    rw [hi]
    exact ⟨rest, k, flaw, hb, hk, hf, fun other h => H.prefix_of_breaks hk (hb ▸ h)⟩

/-- Every failure to read a code is that of a break. -/
theorem exists_malformed_of_failure (H : form.Reads code) (encoding : String) (offset : Nat)
    (bytes : List UInt8) {failure : Failure}
    (h : (readFrom encoding form.decoder [] offset bytes).failure? = some failure) :
    ∃ offset flaw, failure = .program ⟨.malformed encoding offset flaw, none⟩ := by
  obtain ⟨text, rest, rfl, rfl | ⟨k, flaw, hk⟩⟩ := H.exists_text bytes
  · rw [List.append_nil, (readFrom_text H encoding offset text).2] at h
    cases h
  · rw [(readFrom_text_breaks H encoding offset text hk).2] at h
    cases h
    exact ⟨_, flaw, rfl⟩

end StackAssembler.Source

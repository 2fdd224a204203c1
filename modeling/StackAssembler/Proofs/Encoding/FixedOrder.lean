import StackAssembler.Encoding.Name
import StackAssembler.Proofs.Encoding.CodeUnits

/-!
# Reading a fixed byte order

UTF-16 and UTF-32 in a fixed byte order have no mark, so everything that is read is text, an initial
`U+FEFF` included.  Both forms read their codes, and what is left to say is where they stop: `Stops`
lists the ways in which bytes fail to begin with a character, each with the byte at which that
shows.  It does not mention the verdicts on parts of a character, of which the decoder is made; that
it says the same as they do is shown form by form (`stops_of_breaks`, `breaks_of_stops`).

## Main definitions

* `fixedOrders`: the encodings in question.
* `Stops`: how an input fails to begin with a character.
-/

namespace StackAssembler.Encoding

/-- The encodings in code units of a fixed byte order. -/
def fixedOrders : List Encoding := [.utf16 .little, .utf16 .big, .utf32 .little, .utf32 .big]

/-- The encodings have their names. -/
theorem ofName?_fixedOrders :
    ["utf-16-le", "utf-16-be", "utf-32-le", "utf-32-be"].map ofName? = fixedOrders.map some := by
  decide +kernel

theorem mem_fixedOrders {encoding : Encoding} (h : encoding ∈ fixedOrders) :
    ∃ order, encoding = .utf16 order ∨ encoding = .utf32 order := by
  simp only [fixedOrders, List.mem_cons, List.not_mem_nil, or_false] at h
  rcases h with rfl | rfl | rfl | rfl <;> simp

/-- The input does not begin with a character; this shows with the byte at the offset, or with the
end of the input if that is its length. -/
inductive Stops : Encoding → List UInt8 → Nat → Flaw → Prop
  /-- Half a code unit is left. -/
  | half (order : ByteOrder) (byte : UInt8) : Stops (.utf16 order) [byte] 1 .truncatedUnit
  /-- The first code unit is a low surrogate. -/
  | low {order : ByteOrder} {unit : List UInt8} (rest : List UInt8) : unit.length = 2 →
      Utf16.isLow (order.value unit) = true →
      Stops (.utf16 order) (unit ++ rest) 1 .loneLowSurrogate
  /-- The first code unit is a high surrogate, and the second one no low surrogate. -/
  | high {order : ByteOrder} {unit next : List UInt8} (rest : List UInt8) : unit.length = 2 →
      Utf16.isHigh (order.value unit) = true → next.length = 2 →
      Utf16.isLow (order.value next) = false →
      Stops (.utf16 order) (unit ++ next ++ rest) 3 .loneHighSurrogate
  /-- A high surrogate is left, or one and half a code unit. -/
  | unpaired {order : ByteOrder} {unit tail : List UInt8} : unit.length = 2 →
      Utf16.isHigh (order.value unit) = true → tail.length ≤ 1 →
      Stops (.utf16 order) (unit ++ tail) (2 + tail.length) .unexpectedEnd
  /-- Part of a code unit is left. -/
  | cut {order : ByteOrder} {bytes : List UInt8} : bytes ≠ [] → bytes.length < 4 →
      Stops (.utf32 order) bytes bytes.length .truncatedUnit
  /-- The first code unit is a surrogate. -/
  | surrogate {order : ByteOrder} {unit : List UInt8} (rest : List UInt8) : unit.length = 4 →
      0xd800 ≤ order.value unit → order.value unit < 0xe000 →
      Stops (.utf32 order) (unit ++ rest) 3 .surrogateUnit
  /-- The first code unit is above the last code point. -/
  | large {order : ByteOrder} {unit : List UInt8} (rest : List UInt8) : unit.length = 4 →
      0x110000 ≤ order.value unit → Stops (.utf32 order) (unit ++ rest) 3 .unitTooLarge

/-! ## Breaks -/

/-- Bytes that are refused together, after each part of them was awaiting more, are a break. -/
theorem Form.breaks_of_judge {form : Form} {bytes : List UInt8} {k : Nat} {flaw : Flaw}
    (hlength : bytes.length = k + 1)
    (hpart : ∀ part, part ≠ [] → part <+: bytes → part.length ≤ k → form.judge part = .part)
    (hbad : form.judge bytes = .bad flaw) (rest : List UInt8) :
    form.Breaks (bytes ++ rest) k flaw := by
  obtain ⟨pending, byte, rfl⟩ : ∃ pending byte, bytes = pending ++ [byte] :=
    ⟨_, _, (List.dropLast_concat_getLast (List.ne_nil_of_length_eq_add_one hlength)).symm⟩
  obtain rfl : pending.length = k := by simpa using hlength
  have ha : form.Awaits pending := by
    intro part hne hp
    exact hpart part hne (hp.trans (List.prefix_append ..)) hp.length_le
  rw [List.append_assoc]
  exact .bad rest ha hbad

namespace Utf16

variable {order : ByteOrder} {unit : List UInt8}

/-- One byte, or three, are awaiting more if the first code unit is a high surrogate; so is that
code unit itself. -/
theorem judge_part_of_high (hlength : unit.length = 2) (hh : isHigh (order.value unit) = true)
    {part tail : List UInt8} (hne : part ≠ []) (hp : part <+: unit ++ tail)
    (hpart : part.length ≤ 3) : judge order part = .part := by
  have hpos : 0 < part.length := List.length_pos_iff.2 hne
  by_cases htwo : part.length = 2
  · obtain rfl : part = unit :=
      (List.prefix_of_prefix_length_le hp (List.prefix_append ..) (by omega)).eq_of_length
        (by omega)
    have hrange := (isHigh_iff _).1 hh
    have hlow : ¬ isLow (order.value part) = true := by
      rw [isLow_iff]
      omega
    rw [judge_unit order htwo, if_neg hlow, if_pos hh]
  · exact judge_of_odd order (by omega)

/-- Four bytes are never awaiting more. -/
theorem length_le_of_awaits {pending : List UInt8} (ha : (form order).Awaits pending) :
    pending.length ≤ 3 := by
  refine ha.length_le fun bytes hlength hpart => ?_
  obtain ⟨a, b, c, d, rfl⟩ := List.length_eq_four.1 hlength
  have hpair : judge order ([a, b] ++ [c, d]) = .part := hpart
  rw [judge_pair order (by rfl) (by rfl)] at hpair
  split_ifs at hpair

theorem stops_of_breaks {bytes : List UInt8} {k : Nat} {flaw : Flaw}
    (h : (form order).Breaks bytes k flaw) : Stops (.utf16 order) bytes k flaw := by
  cases h with
  | @bad pending byte _ rest ha hbad =>
      change judge order _ = _ at hbad
      have hle := length_le_of_awaits ha
      have hlength : (pending ++ [byte]).length = pending.length + 1 := by simp
      by_cases hodd : (pending ++ [byte]).length = 1 ∨ (pending ++ [byte]).length = 3
      · rw [judge_of_odd order hodd] at hbad
        cases hbad
      by_cases hunit : (pending ++ [byte]).length = 2
      · rw [judge_unit order hunit] at hbad
        have hone : pending.length = 1 := by omega
        split_ifs at hbad with hl hh
        cases hbad
        rw [hone, ← List.singleton_append, ← List.append_assoc]
        exact .low rest hunit hl
      · -- The second code unit is complete, and the first one has been awaiting it.
        have hthree : pending.length = 3 := by omega
        obtain ⟨a, b, c, rfl⟩ := List.length_eq_three.1 hthree
        have hsplit : [a, b, c] = [a, b] ++ [c] := rfl
        have hh := isHigh_of_awaits order ha hsplit rfl
        have hpair : judge order ([a, b] ++ [c, byte]) = .bad flaw := hbad
        rw [judge_pair order (by rfl) (by rfl)] at hpair
        split_ifs at hpair with hl
        cases hpair
        have hstops : Stops (.utf16 order) ([a, b] ++ [c, byte] ++ rest) 3 .loneHighSurrogate :=
          .high rest rfl hh rfl (by simpa using hl)
        exact hstops
  | short hne ha hf =>
      have hle := length_le_of_awaits ha
      rcases bytes with _ | ⟨a, _ | ⟨b, tail⟩⟩
      · exact absurd rfl hne
      · cases hf
        exact .half order a
      · cases hf
        have hsplit : a :: b :: tail = [a, b] ++ tail := rfl
        have hh := isHigh_of_awaits order ha hsplit rfl
        have hlength : ([a, b] ++ tail).length = 2 + tail.length := by simp; omega
        rw [hsplit, hlength] at hle ⊢
        exact .unpaired rfl hh (by omega)

theorem breaks_of_stops {bytes : List UInt8} {k : Nat} {flaw : Flaw}
    (h : Stops (.utf16 order) bytes k flaw) : (form order).Breaks bytes k flaw := by
  cases h with
  | half _ byte =>
      refine .short (List.cons_ne_nil byte []) (fun part hne hp => ?_) rfl
      have hpos : 0 < part.length := List.length_pos_iff.2 hne
      have hle := hp.length_le
      exact judge_of_odd order (.inl (by simp at hle; omega))
  | @low _ unit rest hlength hl =>
      refine Form.breaks_of_judge hlength (fun part hne hp hle => ?_) ?_ rest
      · have hpos : 0 < part.length := List.length_pos_iff.2 hne
        exact judge_of_odd order (.inl (by omega))
      · change judge order unit = _
        rw [judge_unit order hlength, if_pos hl]
  | @high _ unit next rest hlength hh hnext hl =>
      refine Form.breaks_of_judge (by simp [hlength, hnext]) (fun part hne hp hle => ?_) ?_ rest
      · exact judge_part_of_high hlength hh hne hp hle
      · change judge order (unit ++ next) = _
        rw [judge_pair order hlength hnext, if_neg (by simp [hl])]
  | @unpaired _ unit tail hlength hh htail =>
      obtain ⟨a, b, rfl⟩ := List.length_eq_two.1 hlength
      have hall : ([a, b] ++ tail).length = 2 + tail.length := by simp; omega
      rw [← hall]
      refine .short (List.cons_ne_nil a _) (fun part hne hp => ?_) rfl
      exact judge_part_of_high hlength hh hne hp (by have := hp.length_le; omega)

end Utf16

namespace Utf32

variable {order : ByteOrder}

/-- Four bytes are never awaiting more. -/
theorem length_lt_of_awaits {pending : List UInt8} (ha : (form order).Awaits pending) :
    pending.length < 4 := by
  refine Nat.lt_succ_of_le (ha.length_le fun bytes hlength hpart => ?_)
  have hverdict : judge order bytes = .part := hpart
  rw [judge_of_length_eq order hlength] at hverdict
  split_ifs at hverdict

/-- Fewer than four bytes are awaiting more. -/
theorem awaits_of_length_lt {pending : List UInt8} (h : pending.length < 4) :
    (form order).Awaits pending := by
  intro part hne hp
  have hle := hp.length_le
  exact judge_of_length_ne order (by omega)

theorem stops_of_breaks {bytes : List UInt8} {k : Nat} {flaw : Flaw}
    (h : (form order).Breaks bytes k flaw) : Stops (.utf32 order) bytes k flaw := by
  cases h with
  | @bad pending byte _ rest ha hbad =>
      change judge order _ = _ at hbad
      have hlt := length_lt_of_awaits ha
      by_cases hfour : (pending ++ [byte]).length = 4
      · have hthree : pending.length = 3 := by simpa using hfour
        rw [judge_of_length_eq order hfour] at hbad
        rw [hthree, ← List.singleton_append, ← List.append_assoc]
        split_ifs at hbad with hs hl
        · cases hbad
          exact .surrogate rest hfour hs.1 hs.2
        · cases hbad
          exact .large rest hfour hl
      · rw [judge_of_length_ne order hfour] at hbad
        cases hbad
  | short hne ha hf =>
      have hlt := length_lt_of_awaits ha
      cases bytes with
      | nil => exact absurd rfl hne
      | cons byte rest =>
          cases hf
          exact .cut hne hlt

theorem breaks_of_stops {bytes : List UInt8} {k : Nat} {flaw : Flaw}
    (h : Stops (.utf32 order) bytes k flaw) : (form order).Breaks bytes k flaw := by
  have hpart : ∀ part : List UInt8, part.length ≤ 3 → judge order part = .part :=
    fun part hle => judge_of_length_ne order (by omega)
  cases h with
  | cut hne hlt =>
      cases bytes with
      | nil => exact absurd rfl hne
      | cons byte rest => exact .short hne (awaits_of_length_lt hlt) rfl
  | @surrogate _ unit rest hlength hlow hhigh =>
      refine Form.breaks_of_judge hlength (fun part _ _ hle => hpart part hle) ?_ rest
      change judge order unit = _
      rw [judge_of_length_eq order hlength, if_pos ⟨hlow, hhigh⟩]
  | @large _ unit rest hlength hlarge =>
      refine Form.breaks_of_judge hlength (fun part _ _ hle => hpart part hle) ?_ rest
      change judge order unit = _
      rw [judge_of_length_eq order hlength, if_neg (by omega), if_pos hlarge]

end Utf32

/-- **Each of these encodings is read by a form that reads its code**, and breaks where `Stops`
says. -/
theorem exists_form_of_fixedOrder {encoding : Encoding} (h : encoding ∈ fixedOrders) :
    ∃ (form : Form) (code : Char → List UInt8), form.Reads code ∧
      encoding.decoder = form.decoder ∧
      (∀ text, encoding.encode text = .ok (text.flatMap code)) ∧
      ∀ bytes k flaw, form.Breaks bytes k flaw ↔ encoding.Stops bytes k flaw := by
  obtain ⟨order, rfl | rfl⟩ := mem_fixedOrders h
  · exact ⟨Utf16.form order, Utf16.encodeChar order, Utf16.form_reads order, rfl, fun _ => rfl,
      fun _ _ _ => ⟨Utf16.stops_of_breaks, Utf16.breaks_of_stops⟩⟩
  · exact ⟨Utf32.form order, fun c => order.bytes 4 c.toNat, Utf32.form_reads order, rfl,
      fun _ => rfl, fun _ _ _ => ⟨Utf32.stops_of_breaks, Utf32.breaks_of_stops⟩⟩

end StackAssembler.Encoding

namespace StackAssembler.Source

open Encoding

/-- **In a fixed byte order exactly the texts are read.**  An input is read without a failure if and
only if it is a text in the encoding, and it is read as that text.  Of any other input the longest
part is read that is a text, and what follows that part stops the reading as `Stops` says: its flaw
is reported at the offset where it shows.  Conversely, wherever a text is followed by what does not
begin with a character, just that text is read and that flaw is reported. -/
theorem characters_fixedOrder_exact :
    ["utf-16-le", "utf-16-be", "utf-32-le", "utf-32-be"].map ofName? = fixedOrders.map some ∧
    ∀ (name : String) (encoding : Encoding), ofName? name = some encoding →
      encoding ∈ fixedOrders → ∀ bytes : List UInt8,
      let reading := characters name bytes
      (∀ text, reading.failure? = none ∧ reading.items = text ↔
        encoding.encode text = .ok bytes) ∧
      ((∀ text, encoding.encode text ≠ .ok bytes) → ∃ data rest offset flaw,
        encoding.encode reading.items = .ok data ∧ bytes = data ++ rest ∧
        encoding.Stops rest offset flaw ∧
        reading.failure? = some (.program ⟨.malformed name (data.length + offset) flaw, none⟩) ∧
        ∀ text longer, encoding.encode text = .ok longer → longer <+: bytes → longer <+: data) ∧
      ∀ text data rest offset flaw, encoding.encode text = .ok data → bytes = data ++ rest →
        encoding.Stops rest offset flaw → reading.items = text ∧
          reading.failure? =
            some (.program ⟨.malformed name (data.length + offset) flaw, none⟩) := by
  refine ⟨ofName?_fixedOrders, fun name encoding hname hfixed bytes => ?_⟩
  intro reading
  obtain ⟨form, code, H, hdecoder, hencode, hstops⟩ := exists_form_of_fixedOrder hfixed
  have hread : reading = readFrom name form.decoder [] 0 bytes := by
    have h := characters_of_name hname bytes
    rw [hdecoder] at h
    exact h
  refine ⟨fun text => ?_, fun hne => ?_, fun text data rest offset flaw ht hb hs => ?_⟩
  · rw [hread, hencode, Except.ok.injEq, eq_comm (a := text.flatMap code)]
    exact readFrom_eq_text_iff H name 0 bytes text
  · have hnone : ∀ text : List Char, bytes ≠ text.flatMap code := by
      intro text hb
      exact hne text (by rw [hencode, hb])
    obtain ⟨rest, offset, flaw, hb, hbreaks, hf, hlongest⟩ :=
      readFrom_of_ne_text H name 0 bytes hnone
    rw [← hread] at hb hf hlongest
    refine ⟨reading.items.flatMap code, rest, offset, flaw, hencode _, hb,
      (hstops ..).1 hbreaks, ?_, fun text longer ht hp => ?_⟩
    · rw [hf, Nat.zero_add]
      rfl
    · rw [hencode] at ht
      cases ht
      obtain ⟨more, hm⟩ := hlongest text hp
      exact ⟨more.flatMap code, by rw [← hm, List.flatMap_append]⟩
  · rw [hencode] at ht
    cases ht
    obtain ⟨hitems, hf⟩ := readFrom_text_breaks H name 0 text ((hstops ..).2 hs)
    rw [hread, hb]
    refine ⟨hitems, ?_⟩
    rw [hf, Nat.zero_add]
    rfl

/-- A pair of surrogates behind an initial `U+FEFF`, which is text here, and a letter before a
surrogate where there are no pairs. -/
theorem characters_fixedOrder_exact_surrogates :
    ofName? "utf-16-be" = some (.utf16 .big) ∧
      (characters "utf-16-be" [0xfe, 0xff, 0xd8, 0x3d, 0xde, 0x00]).items = ['\ufeff', '😀'] ∧
      ofName? "utf-32-le" = some (.utf32 .little) ∧
      (characters "utf-32-le" [0x61, 0, 0, 0, 0x3d, 0xd8, 0, 0]).items = ['a'] ∧
      (characters "utf-32-le" [0x61, 0, 0, 0, 0x3d, 0xd8, 0, 0]).failure? =
        some (.program ⟨.malformed "utf-32-le" 7 .surrogateUnit, none⟩) := by
  have hname16 : ofName? "utf-16-be" = some (.utf16 .big) := by decide +kernel
  have hname32 : ofName? "utf-32-le" = some (.utf32 .little) := by decide +kernel
  have hpair : (Encoding.utf16 .big).encode ['\ufeff', '😀'] =
      .ok [0xfe, 0xff, 0xd8, 0x3d, 0xde, 0x00] := by decide +kernel
  have hletter : (Encoding.utf32 .little).encode ['a'] = .ok [0x61, 0, 0, 0] := by decide +kernel
  have hvalue : ByteOrder.little.value [0x3d, 0xd8, 0, 0] = 0xd83d := rfl
  have hstops : (Encoding.utf32 .little).Stops [0x3d, 0xd8, 0, 0] 3 .surrogateUnit :=
    .surrogate [] rfl (by rw [hvalue]; decide) (by rw [hvalue]; decide)
  obtain ⟨htext, -, -⟩ := characters_fixedOrder_exact.2 "utf-16-be" _ hname16 (by decide)
    [0xfe, 0xff, 0xd8, 0x3d, 0xde, 0x00]
  obtain ⟨-, -, hbreak⟩ := characters_fixedOrder_exact.2 "utf-32-le" _ hname32 (by decide)
    [0x61, 0, 0, 0, 0x3d, 0xd8, 0, 0]
  obtain ⟨hitems, hfailure⟩ := hbreak ['a'] _ [0x3d, 0xd8, 0, 0] 3 _ hletter rfl hstops
  exact ⟨hname16, ((htext _).2 hpair).2, hname32, hitems, hfailure⟩

end StackAssembler.Source

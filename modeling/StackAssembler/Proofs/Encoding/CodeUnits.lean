import StackAssembler.Encoding.Utf16
import StackAssembler.Encoding.Utf32
import StackAssembler.Proofs.Encoding.Code
import StackAssembler.Proofs.Machine.ByteOrder
import Mathlib.Data.List.Basic

/-!
# UTF-16 and UTF-32 are codes

In either byte order the form of UTF-16 reads the code that gives each character its one or two code
units, and the form of UTF-32 the code that gives it one.  The verdict on some bytes depends on how
many they are, and beyond that on the code units that they denote; so each form has one lemma for
each length that matters.

## Main statements

* `Utf16.form_reads`, `Utf32.form_reads`: the forms read their codes.
-/

namespace StackAssembler.Encoding

/-- The number of a character is below the surrogates or above them. -/
theorem toNat_valid (c : Char) :
    c.toNat < 0xd800 ∨ 0xdfff < c.toNat ∧ c.toNat < 0x110000 := c.valid

/-- A number below the surrogates or above them is that of a character. -/
theorem exists_char {n : Nat} (h : n < 0xd800 ∨ 0xdfff < n ∧ n < 0x110000) :
    ∃ c : Char, c.toNat = n :=
  ⟨Char.ofNat n, toNat_ofNat h⟩

/-! ## UTF-32 -/

namespace Utf32

variable (order : ByteOrder)

@[simp] theorem length_code (n : Nat) : (order.bytes 4 n).length = 4 := by
  simp [ByteOrder.bytes]

/-- Four bytes are complete, unless their number is none of a character. -/
theorem judge_of_length_eq {bytes : List UInt8} (h : bytes.length = 4) :
    judge order bytes =
      if 0xd800 ≤ order.value bytes ∧ order.value bytes < 0xe000 then .bad .surrogateUnit
      else if 0x110000 ≤ order.value bytes then .bad .unitTooLarge
      else .whole [order.value bytes] := by
  obtain ⟨a, b, c, d, rfl⟩ := List.length_eq_four.1 h
  rfl

/-- Any other number of bytes is awaiting more. -/
theorem judge_of_length_ne {bytes : List UInt8} (h : bytes.length ≠ 4) :
    judge order bytes = .part := by
  unfold judge
  split
  · simp at h
  · rfl

/-- **The form of UTF-32 reads the four bytes of each character's number.** -/
theorem form_reads : (form order).Reads fun c => order.bytes 4 c.toNat where
  nonempty c h := by
    have hlength := congrArg List.length h
    simp at hlength
  whole c := by
    have hvalid := toNat_valid c
    have hvalue : order.value (order.bytes 4 c.toNat) = c.toNat := by
      rw [ByteOrder.value_bytes]
      omega
    change judge order _ = _
    rw [judge_of_length_eq order (length_code order c.toNat), hvalue, if_neg (by omega),
      if_neg (by omega)]
  part c bytes hne hp hb := by
    apply judge_of_length_ne
    intro hlength
    exact hb (hp.eq_of_length (by simp [hlength]))
  sound pending byte codePoints ha h := by
    change judge order _ = _ at h
    by_cases hlength : (pending ++ [byte]).length = 4
    · rw [judge_of_length_eq order hlength] at h
      split at h
      · cases h
      split at h
      · cases h
      obtain ⟨c, hc⟩ : ∃ c : Char, c.toNat = order.value (pending ++ [byte]) :=
        exists_char (by omega)
      cases h
      refine ⟨c, ?_, by rw [hc]⟩
      rw [hc, ← hlength, ByteOrder.bytes_value]
    · rw [judge_of_length_ne order hlength] at h
      cases h
  finish_nil := rfl
  finish_error pending hne ha := by
    cases pending with
    | nil => exact absurd rfl hne
    | cons byte pending => exact ⟨_, rfl⟩

end Utf32

/-! ## UTF-16 -/

namespace Utf16

variable (order : ByteOrder)

@[simp] theorem length_unit (n : Nat) : (order.bytes 2 n).length = 2 := by
  simp [ByteOrder.bytes]

theorem value_unit {n : Nat} (h : n < 0x10000) : order.value (order.bytes 2 n) = n := by
  rw [ByteOrder.value_bytes]
  omega

theorem isHigh_iff (unit : Nat) : isHigh unit = true ↔ 0xd800 ≤ unit ∧ unit < 0xdc00 := by
  simp [isHigh]

theorem isLow_iff (unit : Nat) : isLow unit = true ↔ 0xdc00 ≤ unit ∧ unit < 0xe000 := by
  simp [isLow]

/-- Half a code unit is awaiting the other half. -/
theorem judge_of_odd {bytes : List UInt8} (h : bytes.length = 1 ∨ bytes.length = 3) :
    judge order bytes = .part := by
  rcases h with h | h
  · obtain ⟨a, rfl⟩ := List.length_eq_one_iff.1 h
    rfl
  · obtain ⟨a, b, c, rfl⟩ := List.length_eq_three.1 h
    rfl

/-- One code unit is complete, unless it is a surrogate. -/
theorem judge_unit {unit : List UInt8} (h : unit.length = 2) :
    judge order unit =
      if isLow (order.value unit) then .bad .loneLowSurrogate
      else if isHigh (order.value unit) then .part
      else .whole [order.value unit] := by
  obtain ⟨a, b, rfl⟩ := List.length_eq_two.1 h
  rfl

/-- Two code units are complete if the second one is a low surrogate. -/
theorem judge_pair {high low : List UInt8} (hh : high.length = 2) (hl : low.length = 2) :
    judge order (high ++ low) =
      if isLow (order.value low) then .whole [pairValue (order.value high) (order.value low)]
      else .bad .loneHighSurrogate := by
  obtain ⟨a, b, rfl⟩ := List.length_eq_two.1 hh
  obtain ⟨c, d, rfl⟩ := List.length_eq_two.1 hl
  rfl

theorem judge_of_length_gt {bytes : List UInt8} (h : 4 < bytes.length) :
    judge order bytes = .bad .loneHighSurrogate := by
  unfold judge
  split <;> first | rfl | simp at h

/-- The bytes of a character are one code unit that is no surrogate, or a high and a low one that
have its number. -/
theorem encodeChar_cases (c : Char) :
    (c.toNat < 0x10000 ∧ encodeChar order c = order.bytes 2 c.toNat) ∨
      ∃ high low, isHigh high = true ∧ isLow low = true ∧ pairValue high low = c.toNat ∧
        encodeChar order c = order.bytes 2 high ++ order.bytes 2 low := by
  have hvalid := toNat_valid c
  by_cases hsmall : c.toNat < 0x10000
  · exact .inl ⟨hsmall, by simp only [encodeChar, if_pos hsmall]⟩
  · refine .inr ⟨0xd800 + (c.toNat - 0x10000) / 0x400, 0xdc00 + (c.toNat - 0x10000) % 0x400, ?_,
      ?_, ?_, by simp only [encodeChar, if_neg hsmall]⟩
    · rw [isHigh_iff]
      omega
    · rw [isLow_iff]
      omega
    · rw [pairValue]
      omega

/-- A code unit that is no surrogate is a character. -/
theorem exists_encodeChar_eq_unit {unit : List UInt8} (hlength : unit.length = 2)
    (hl : isLow (order.value unit) = false) (hh : isHigh (order.value unit) = false) :
    ∃ c : Char, unit = encodeChar order c ∧ c.toNat = order.value unit := by
  have hunit : order.bytes 2 (order.value unit) = unit := hlength ▸ order.bytes_value unit
  have hlt : order.value unit < 0x10000 := by
    rw [← hunit, ByteOrder.value_bytes]
    omega
  rw [← Bool.not_eq_true, isLow_iff] at hl
  rw [← Bool.not_eq_true, isHigh_iff] at hh
  obtain ⟨c, hc⟩ : ∃ c : Char, c.toNat = order.value unit := exists_char (by omega)
  refine ⟨c, ?_, hc⟩
  simp only [encodeChar, hc, if_pos hlt, hunit]

/-- A high and a low surrogate are a character. -/
theorem exists_encodeChar_eq_pair {high low : List UInt8} (hlength : high.length = 2)
    (hlength' : low.length = 2) (hh : isHigh (order.value high) = true)
    (hl : isLow (order.value low) = true) :
    ∃ c : Char, high ++ low = encodeChar order c ∧
      c.toNat = pairValue (order.value high) (order.value low) := by
  have hhigh : order.bytes 2 (order.value high) = high := hlength ▸ order.bytes_value high
  have hlow : order.bytes 2 (order.value low) = low := hlength' ▸ order.bytes_value low
  rw [isHigh_iff] at hh
  rw [isLow_iff] at hl
  generalize order.value high = u at hhigh hh
  generalize order.value low = v at hlow hl
  obtain ⟨c, hc⟩ : ∃ c : Char, c.toNat = pairValue u v :=
    exists_char (by rw [pairValue]; omega)
  refine ⟨c, ?_, hc⟩
  have hlarge : ¬ pairValue u v < 0x10000 := by
    rw [pairValue]
    omega
  have hu : 0xd800 + (pairValue u v - 0x10000) / 0x400 = u := by
    rw [pairValue]
    omega
  have hv : 0xdc00 + (pairValue u v - 0x10000) % 0x400 = v := by
    rw [pairValue]
    omega
  simp only [encodeChar, hc, if_neg hlarge, hu, hv, hhigh, hlow]

/-- Four bytes whose first two are awaiting the others begin with a high surrogate. -/
theorem isHigh_of_awaits {pending : List UInt8} (ha : (form order).Awaits pending)
    {unit rest : List UInt8} (hp : pending = unit ++ rest) (hlength : unit.length = 2) :
    isHigh (order.value unit) = true := by
  have hpart : judge order unit = .part :=
    ha unit (by rintro rfl; simp at hlength) ⟨rest, hp.symm⟩
  rw [judge_unit order hlength] at hpart
  by_contra hh
  rw [if_neg hh] at hpart
  split at hpart <;> cases hpart

/-- **The form of UTF-16 reads the code units of each character.** -/
theorem form_reads : (form order).Reads (encodeChar order) where
  nonempty c h := by
    have hlength := congrArg List.length h
    rcases encodeChar_cases order c with ⟨-, hc⟩ | ⟨high, low, -, -, -, hc⟩ <;>
      simp [hc] at hlength
  whole c := by
    change judge order _ = _
    have hvalid := toNat_valid c
    rcases encodeChar_cases order c with ⟨hsmall, hc⟩ | ⟨high, low, hh, hl, hpair, hc⟩
    · have hlow : ¬ isLow c.toNat = true := by
        rw [isLow_iff]
        omega
      have hhigh : ¬ isHigh c.toNat = true := by
        rw [isHigh_iff]
        omega
      rw [hc, judge_unit order (length_unit order c.toNat), value_unit order hsmall, if_neg hlow,
        if_neg hhigh]
    · have hh' := (isHigh_iff high).1 hh
      have hl' := (isLow_iff low).1 hl
      rw [hc, judge_pair order (length_unit order high) (length_unit order low),
        value_unit order (by omega), value_unit order (by omega), if_pos hl, hpair]
  part c bytes hne hp hb := by
    change judge order _ = _
    have hlt : bytes.length < (encodeChar order c).length := by
      apply Nat.lt_of_le_of_ne hp.length_le
      intro hlength
      exact hb (hp.eq_of_length hlength)
    have hpos : 0 < bytes.length := List.length_pos_iff.2 hne
    rcases encodeChar_cases order c with ⟨-, hc⟩ | ⟨high, low, hh, -, -, hc⟩
    · rw [hc, length_unit] at hlt
      exact judge_of_odd order (by omega)
    · rw [hc, List.length_append, length_unit, length_unit] at hlt
      by_cases hlength : bytes.length = 2
      · -- Two bytes of a pair are its first code unit.
        obtain rfl : bytes = order.bytes 2 high := by
          rw [hc] at hp
          have hfirst : order.bytes 2 high <+: order.bytes 2 high ++ order.bytes 2 low :=
            List.prefix_append ..
          apply (List.prefix_of_prefix_length_le hp hfirst (by simp [hlength])).eq_of_length
          simp [hlength]
        have hh' := (isHigh_iff high).1 hh
        have hlow : ¬ isLow high = true := by
          rw [isLow_iff]
          omega
        rw [judge_unit order hlength, value_unit order (by omega), if_neg hlow, if_pos hh]
      · exact judge_of_odd order (by omega)
  sound pending byte codePoints ha h := by
    change judge order _ = _ at h
    by_cases hodd : (pending ++ [byte]).length = 1 ∨ (pending ++ [byte]).length = 3
    · rw [judge_of_odd order hodd] at h
      cases h
    by_cases hlong : 4 < (pending ++ [byte]).length
    · rw [judge_of_length_gt order hlong] at h
      cases h
    have hpos : 0 < (pending ++ [byte]).length := by simp
    by_cases hunit : (pending ++ [byte]).length = 2
    · rw [judge_unit order hunit] at h
      split at h
      · cases h
      · next hl =>
          split at h
          · cases h
          · next hh =>
              cases h
              obtain ⟨c, hc, hn⟩ := exists_encodeChar_eq_unit order hunit (by simpa using hl)
                (by simpa using hh)
              exact ⟨c, hc, by rw [hn]⟩
    · -- The first code unit has been awaiting the second, so it is a high surrogate.
      have hlength : pending.length = 3 := by
        rw [List.length_append, List.length_singleton] at *
        omega
      obtain ⟨a, b, d, rfl⟩ := List.length_eq_three.1 hlength
      have hsplit : [a, b, d] = [a, b] ++ [d] := rfl
      have hh : isHigh (order.value [a, b]) = true := isHigh_of_awaits order ha hsplit rfl
      have hhigh : [a, b].length = 2 := rfl
      have hlow : [d, byte].length = 2 := rfl
      have hpair := judge_pair order hhigh hlow
      change judge order ([a, b] ++ [d, byte]) = _ at h
      rw [hpair] at h
      split at h
      · next hl =>
          cases h
          obtain ⟨c, hc, hn⟩ := exists_encodeChar_eq_pair order rfl rfl hh hl
          exact ⟨c, hc, by rw [hn]⟩
      · cases h
  finish_nil := rfl
  finish_error pending hne ha := by
    match pending with
    | [] => exact absurd rfl hne
    | [a] => exact ⟨_, rfl⟩
    | a :: b :: rest => exact ⟨_, rfl⟩

end Utf16

end StackAssembler.Encoding

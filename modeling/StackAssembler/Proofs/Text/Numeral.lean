import StackAssembler.Proofs.Text.Case
import StackAssembler.Text.Numeral
import Mathlib.Algebra.Group.Nat.Defs
import Mathlib.Data.List.Forall2
import Mathlib.Tactic.Common

/-!
# What digits denote

`Base.Denotes` says what digits alone denote, with no sign, blank, underscore or mark.  The digits
of a number denote it, in either case and with zeros in front as well.

## Main definitions

* `Base.Reads`: characters are digits with certain values.
* `Base.Denotes`: a text of digits denotes a number.
-/

namespace StackAssembler.Text

/-- A property of the first characters, checked code by code. -/
theorem code_forall {bound : Nat} {p : Char → Prop} (h : ∀ code < bound, p (Char.ofNat code))
    (c : Char) (hc : c.toNat < bound) : p c := by
  have hp := h c.toNat hc
  rwa [Char.ofNat_toNat] at hp

namespace Base

/-- The characters are digits of the base that have these values. -/
def Reads (base : Base) : List Char → List Nat → Prop :=
  List.Forall₂ fun c d => base.digit? c = some d

/-- The characters are digits of the base, and together they denote the number. -/
def Denotes (base : Base) (text : List Char) (n : Nat) : Prop :=
  ∃ digits, base.Reads text digits ∧ base.value digits = n

variable {base : Base} {text : List Char} {digits : List Nat} {n : Nat}

/-! ## Digits -/

/-- The digits of either base are those of base sixteen. -/
theorem range_of_digit? {c : Char} {d : Nat} (h : base.digit? c = some d) :
    0x30 ≤ c.toNat ∧ c.toNat ≤ 0x39 ∨ 0x41 ≤ c.toNat ∧ c.toNat ≤ 0x46 ∨
      0x61 ≤ c.toNat ∧ c.toNat ≤ 0x66 := by
  cases base <;> simp only [digit?] at h <;> split_ifs at h <;> omega

theorem digit?_digitChar {d : Nat} (h : d < base.radix) : base.digit? d.digitChar = some d := by
  revert d
  cases base <;> decide

/-- A digit has the same value as a capital. -/
theorem digit?_toUpper {c : Char} {d : Nat} (h : base.digit? c = some d) :
    base.digit? c.toUpper = some d := by
  have hall : ∀ code < 0x67,
      base.digit? (Char.ofNat code).toUpper = base.digit? (Char.ofNat code) := by
    cases base <;> decide
  have hrange := range_of_digit? h
  rw [code_forall (p := fun c => base.digit? c.toUpper = base.digit? c) hall c (by omega), h]

/-- It has the same value as a small letter. -/
theorem digit?_toLower (base : Base) (c : Char) : base.digit? c.toLower = base.digit? c := by
  by_cases hlow : c.toNat < 0x80
  · have hall : ∀ code < 0x80,
        base.digit? (Char.ofNat code).toLower = base.digit? (Char.ofNat code) := by
      cases base <;> decide +kernel
    exact code_forall (p := fun c => base.digit? c.toLower = base.digit? c) hall c hlow
  · rw [toLower_of_le (Nat.le_of_not_lt hlow)]

/-- What holds of all digits of the base holds of all characters that are read. -/
theorem Reads.forall {p : Char → Prop} (h : base.Reads text digits)
    (hp : ∀ c d, base.digit? c = some d → p c) : ∀ c ∈ text, p c := by
  induction h with
  | nil => simp
  | cons hd _ ih => exact List.forall_mem_cons.2 ⟨hp _ _ hd, ih⟩

/-! ## Digits of a number -/

namespace Denotes

theorem concat (h : base.Denotes text n) {c : Char} {d : Nat} (hd : base.digit? c = some d) :
    base.Denotes (text ++ [c]) (n * base.radix + d) := by
  obtain ⟨digits, hdigits, rfl⟩ := h
  exact ⟨digits ++ [d], List.rel_append hdigits (.cons hd .nil), by simp [value]⟩

theorem zeros (h : base.Denotes text n) (count : Nat) :
    base.Denotes (List.replicate count '0' ++ text) n := by
  induction count with
  | zero => exact h
  | succ count ih =>
      obtain ⟨digits, hdigits, rfl⟩ := ih
      have hzero : base.digit? '0' = some 0 := by cases base <;> rfl
      exact ⟨0 :: digits, .cons hzero hdigits, by simp [value]⟩

theorem map_toUpper (h : base.Denotes text n) : base.Denotes (text.map Char.toUpper) n := by
  obtain ⟨digits, hdigits, hvalue⟩ := h
  refine ⟨digits, List.forall₂_map_left_iff.2 ?_, hvalue⟩
  exact List.Forall₂.imp (fun _ _ => digit?_toUpper) hdigits

theorem of_map_toLower (h : base.Denotes (text.map Char.toLower) n) : base.Denotes text n := by
  obtain ⟨digits, hdigits, hvalue⟩ := h
  rw [Reads, List.forall₂_map_left_iff] at hdigits
  simp only [digit?_toLower] at hdigits
  exact ⟨digits, hdigits, hvalue⟩

end Denotes

/-- The digits of a number denote it. -/
theorem denotes_toDigits (base : Base) (n : Nat) : base.Denotes (Nat.toDigits base.radix n) n := by
  have hradix : 1 < base.radix := by cases base <;> decide
  induction n using Nat.strongRecOn with
  | _ n ih =>
      by_cases h : n < base.radix
      · rw [Nat.toDigits_of_lt_base h]
        exact ⟨[n], .cons (digit?_digitChar h) .nil, by simp [value]⟩
      · have hle := Nat.le_of_not_lt h
        have hpos : 0 < base.radix := Nat.lt_of_succ_lt hradix
        have hlt : n / base.radix < n := Nat.div_lt_self (Nat.lt_of_lt_of_le hpos hle) hradix
        have hconcat := (ih _ hlt).concat (digit?_digitChar (Nat.mod_lt n hpos))
        rw [Nat.div_add_mod'] at hconcat
        rw [Nat.toDigits_of_base_le hradix hle]
        exact hconcat

end Base

/-! ## Decimal and hexadecimal numerals -/

theorem denotes_decimal (n : Nat) : Base.ten.Denotes (decimal n) n := Base.ten.denotes_toDigits n

theorem decimal_ne_nil (n : Nat) : decimal n ≠ [] := Nat.toDigits_ne_nil

theorem isDigit_of_mem_decimal {n : Nat} {c : Char} (h : c ∈ decimal n) : c.isDigit = true :=
  Nat.isDigit_of_mem_toDigits (by decide) (by decide) h

theorem length_decimal_le {n count : Nat} (hpos : 0 < count) (h : n < 10 ^ count) :
    (decimal n).length ≤ count :=
  (Nat.length_toDigits_le_iff (by decide) hpos).2 h

/-- The only numeral with a zero in front is that of zero. -/
theorem eq_zero_of_head?_decimal {n : Nat} (h : (decimal n).head? = some '0') : n = 0 := by
  induction n using Nat.strongRecOn with
  | _ n ih =>
      rw [decimal, Nat.toDigits_eq_if (by decide)] at h
      split_ifs at h with hlt
      · simpa using h
      · rw [List.head?_append_of_ne_nil _ Nat.toDigits_ne_nil] at h
        have hzero : n / 10 = 0 := ih (n / 10) (by omega) h
        omega

/-- Zeros in front do not change what digits denote. -/
theorem denotes_hex (width n : Nat) : Base.sixteen.Denotes (hex width n) n :=
  (Base.sixteen.denotes_toDigits n).zeros _

/-- Nor do capitals. -/
theorem denotes_hexUpper (width n : Nat) : Base.sixteen.Denotes (hexUpper width n) n :=
  (denotes_hex width n).map_toUpper

theorem hex_ne_nil (width n : Nat) : hex width n ≠ [] := by
  simp [hex, List.leftpad, Nat.toDigits_ne_nil]

theorem length_hex {width n : Nat} (hpos : 0 < width) (h : n < 16 ^ width) :
    (hex width n).length = width := by
  have hle := (Nat.length_toDigits_le_iff (by decide) hpos).2 h
  simp only [hex, List.leftpad, List.length_append, List.length_replicate]
  omega

/-- In capitals the digits of base sixteen are digits and capitals. -/
theorem upper_of_mem_hexUpper {width n : Nat} {c : Char} (h : c ∈ hexUpper width n) :
    c.isDigit = true ∨ 'A' ≤ c ∧ c ≤ 'F' := by
  obtain ⟨digits, hdigits, -⟩ := denotes_hex width n
  have hall : ∀ code < 0x67, (Base.sixteen.digit? (Char.ofNat code)).isSome = true →
      (Char.ofNat code).toUpper.isDigit = true ∨
        'A' ≤ (Char.ofNat code).toUpper ∧ (Char.ofNat code).toUpper ≤ 'F' := by
    decide
  have hupper : ∀ c ∈ hex width n,
      c.toUpper.isDigit = true ∨ 'A' ≤ c.toUpper ∧ c.toUpper ≤ 'F' := by
    refine hdigits.forall fun c d hd => ?_
    have hrange := Base.range_of_digit? hd
    exact code_forall (p := fun c => (Base.sixteen.digit? c).isSome = true →
      c.toUpper.isDigit = true ∨ 'A' ≤ c.toUpper ∧ c.toUpper ≤ 'F') hall c (by omega)
      (by rw [hd]; rfl)
  obtain ⟨letter, hletter, rfl⟩ := List.mem_map.1 h
  exact hupper letter hletter

end StackAssembler.Text

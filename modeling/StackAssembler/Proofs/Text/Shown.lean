import StackAssembler.Proofs.Text.Numeral
import StackAssembler.Text.ControlSequence
import StackAssembler.Text.Quoted

/-!
# Text that is shown

A text can be shown if all its characters are printable.  It is then on one line, and it tells a
terminal nothing.  Numbers can be shown, and so can a text between quotes, whatever its characters
are, and what is put together from texts that can.  What is printed on a terminal is stripped of its
control sequences, which is no loss for a text without the escape character.

## Main definitions

* `IsShowable`: all characters of a text are printable.
-/

namespace StackAssembler.Text

/-! ## Printable characters -/

/-- All characters of a text are printable. -/
def IsShowable (text : String) : Prop := ∀ c ∈ text.toList, isPrintable c = true

instance (text : String) : Decidable (IsShowable text) :=
  decidable_of_iff (text.toList.all isPrintable = true) List.all_eq_true

variable {c : Char}

/-- The characters from the space to the tilde are printable. -/
theorem isPrintable_of_range (hlow : 0x20 ≤ c.toNat) (hhigh : c.toNat < 0x7f) :
    isPrintable c = true := by
  simp [isPrintable, hlow, hhigh]

theorem not_isPrintable_of_mem {range : Nat × Nat} (hm : range ∈ unprintableRanges)
    (hascii : range.2 < 0x20 ∨ 0x7f ≤ range.1) (hlow : range.1 ≤ c.toNat)
    (hhigh : c.toNat ≤ range.2) : ¬ isPrintable c = true := by
  have hany : (unprintableRanges.any fun range =>
      decide (range.1 ≤ c.toNat) && decide (c.toNat ≤ range.2)) = true :=
    List.any_eq_true.2 ⟨_, hm, by simp [hlow, hhigh]⟩
  have hnot : ¬ (0x20 ≤ c.toNat ∧ c.toNat < 0x7f) := by omega
  simpa [isPrintable, hany] using hnot

/-- **No control character is printable, and no separator of lines or paragraphs is.** -/
theorem no_control_of_isPrintable (h : isPrintable c = true) :
    0x20 ≤ c.toNat ∧ ¬ (0x7f ≤ c.toNat ∧ c.toNat ≤ 0x9f) ∧ c ≠ '\u2028' ∧ c ≠ '\u2029' := by
  have hcontrols : (0x0, 0x1f) ∈ unprintableRanges := by decide +kernel
  have hmore : (0x7f, 0xa0) ∈ unprintableRanges := by decide +kernel
  have hseparators : (0x2028, 0x202f) ∈ unprintableRanges := by decide +kernel
  refine ⟨?_, ?_, ?_, ?_⟩
  · by_contra hlow
    exact not_isPrintable_of_mem hcontrols (by decide) (Nat.zero_le _) (by omega) h
  · rintro ⟨hlow, hhigh⟩
    exact not_isPrintable_of_mem hmore (by decide) hlow (by omega) h
  · rintro rfl
    exact not_isPrintable_of_mem hseparators (by decide) (by decide) (by decide) h
  · rintro rfl
    exact not_isPrintable_of_mem hseparators (by decide) (by decide) (by decide) h

/-! ## What can be shown -/

theorem isShowable_ofList_iff (text : List Char) :
    IsShowable (String.ofList text) ↔ ∀ c ∈ text, isPrintable c = true := by
  rw [IsShowable, String.toList_ofList]

@[simp] theorem isShowable_join_iff (parts : List String) :
    IsShowable (String.join parts) ↔ ∀ part ∈ parts, IsShowable part := by
  simp only [IsShowable, String.toList_join, List.mem_flatMap]
  constructor
  · intro h part hm c hc
    exact h c ⟨part, hm, hc⟩
  · rintro h c ⟨part, hm, hc⟩
    exact h part hm c hc

@[simp] theorem isShowable_append_iff (front rest : String) :
    IsShowable (front ++ rest) ↔ IsShowable front ∧ IsShowable rest := by
  simp only [IsShowable, String.toList_append, List.forall_mem_append]

theorem IsShowable.intercalate {separator : String} (h : IsShowable separator)
    {parts : List String} (hparts : ∀ part ∈ parts, IsShowable part) :
    IsShowable (separator.intercalate parts) := by
  induction parts with
  | nil => simp [IsShowable]
  | cons first rest ih =>
      rw [List.forall_mem_cons] at hparts
      cases rest with
      | nil => simpa using hparts.1
      | cons second rest => simpa [h, hparts.1] using ih hparts.2

/-- A numeral can be shown. -/
theorem Base.Denotes.isPrintable {base : Base} {text : List Char} {n : Nat}
    (h : base.Denotes text n) : ∀ c ∈ text, isPrintable c = true := by
  obtain ⟨digits, hdigits, -⟩ := h
  refine hdigits.forall fun c d hd => ?_
  have hrange := range_of_digit? hd
  exact isPrintable_of_range (by omega) (by omega)

@[simp] theorem isShowable_repr (n : Nat) : IsShowable n.repr := by
  have hdigits : n.repr.toList = decimal n := by simp [decimal]
  rw [IsShowable, hdigits]
  exact (denotes_decimal n).isPrintable

theorem isShowable_hexUpper (width n : Nat) : IsShowable (String.ofList (hexUpper width n)) :=
  (isShowable_ofList_iff _).2 (denotes_hexUpper width n).isPrintable

/-! ## Quoted text -/

theorem isPrintable_of_mem_escapedCode {n : Nat} (h : c ∈ escapedCode n) :
    isPrintable c = true := by
  have hcode : ∀ {kind : Char} {width : Nat}, isPrintable kind = true →
      c ∈ '\\' :: kind :: hex width n → isPrintable c = true := by
    intro kind width hkind hm
    rcases List.mem_cons.1 hm with rfl | hm
    · decide
    · rcases List.mem_cons.1 hm with rfl | hm
      · exact hkind
      · exact (denotes_hex width n).isPrintable c hm
  rw [escapedCode] at h
  split_ifs at h
  · exact hcode (by decide) h
  · exact hcode (by decide) h
  · exact hcode (by decide) h

/-- Between quotes every character is written with printable ones. -/
theorem isPrintable_of_mem_quotedChar {quote d : Char} (hquote : isPrintable quote = true)
    (h : c ∈ quotedChar quote d) : isPrintable c = true := by
  have hpair : ∀ {e : Char}, isPrintable e = true → c ∈ ['\\', e] → isPrintable c = true := by
    intro e he hm
    rcases List.mem_pair.1 hm with rfl | rfl
    · decide
    · exact he
  rw [quotedChar] at h
  split_ifs at h with hspecial _ _ _ hprintable
  · rcases hspecial with rfl | rfl
    · exact hpair hquote h
    · exact hpair (by decide) h
  · exact hpair (by decide) h
  · exact hpair (by decide) h
  · exact hpair (by decide) h
  · rw [List.mem_singleton.1 h]
    exact hprintable
  · exact isPrintable_of_mem_escapedCode h

/-- **A text between quotes can be shown, whatever its characters are.** -/
theorem isShowable_quotedWord (word : List Char) : IsShowable (quotedWord word) := by
  have hquote : isPrintable (quoteFor word) = true := by
    rw [quoteFor]
    split <;> decide
  rw [quotedWord, isShowable_ofList_iff, quotedChars]
  intro c hm
  rw [List.cons_append, List.mem_cons, List.mem_append, List.mem_singleton, List.mem_flatMap] at hm
  rcases hm with rfl | ⟨d, -, hm⟩ | rfl
  · exact hquote
  · exact isPrintable_of_mem_quotedChar hquote hm
  · exact hquote

/-! ## Control sequences -/

/-- What has no escape character in it is shown as it is. -/
theorem toList_plain_append {front : String} (h : escape ∉ front.toList) (rest : String) :
    (plain (front ++ rest)).toList = front.toList ++ (plain rest).toList := by
  rw [plain, plain, String.toList_ofList, String.toList_ofList, String.toList_append]
  generalize front.toList = front at h
  induction front with
  | nil => rfl
  | cons c front ih =>
      rw [List.mem_cons, not_or] at h
      have hnone : controlLength? c (front ++ rest.toList) = none := by
        unfold controlLength?
        split
        · rw [if_neg (Ne.symm h.1)]
        · rfl
      rw [List.cons_append, plainAfter, hnone, ih h.2, List.cons_append]

end StackAssembler.Text

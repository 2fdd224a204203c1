import StackAssembler.Command.Define
import StackAssembler.Proofs.Text.Integer

/-!
# The values of definitions

A definition on the command line has a number behind its first equals sign.  The help text knows two
kinds of them, a decimal integer and the mark `0x` with hexadecimal digits right behind it.  What is
behind the mark goes to a reader of integers, though, and that reader knows more than digits: it
passes over blanks, and takes a sign, a second mark and digits of other scripts.

## Main definitions

* `IsNumber`: the numbers that the help text knows.
* `IsStray`: the other texts that are taken for a number.
-/

namespace StackAssembler.Command.Define

open Text (Grouped isSpace)
open Text.Base (Signed Unsigned ten sixteen scriptDigit?)

/-- The letter of the mark of base sixteen. -/
def IsMark (letter : Char) : Prop := letter = 'x' ∨ letter = 'X'

/-- A decimal integer, or the mark with hexadecimal digits right behind it. -/
inductive IsNumber : List Char → Int → Prop
  | decimal {value : List Char} {n : Int} :
      Signed ten.scriptDigit? ten value n → IsNumber value n
  | hexadecimal {letter : Char} {rest : List Char} {digits : List Nat} :
      IsMark letter → Grouped sixteen.digit? rest digits →
      IsNumber ('0' :: letter :: rest) (sixteen.value digits)

/-- The mark with an integer of base sixteen behind it that is more than hexadecimal digits: blanks,
a sign or a mark stand in front of them, or some are digits of another script. -/
inductive IsStray : List Char → Int → Prop
  | behindMark {letter : Char} {rest : List Char} {n : Int} :
      IsMark letter → (∃ c ∈ rest, c ≠ '_' ∧ sixteen.digit? c = none) →
      Signed sixteen.scriptDigit? sixteen (rest.dropWhile isSpace) n →
      IsStray ('0' :: letter :: rest) n

variable {letter : Char} {rest value : List Char} {n : Int}

theorem IsMark.scriptDigit? (h : IsMark letter) (base : Text.Base) :
    base.scriptDigit? letter = none := by
  rcases h with rfl | rfl <;> cases base <;> decide +kernel

theorem IsMark.isBlank_eq_false (h : IsMark letter) : Text.isBlank letter = false := by
  rcases h with rfl | rfl <;> decide

/-- With a mark nothing is a decimal integer. -/
theorem not_decimal_marked (h : IsMark letter) :
    ¬ Signed ten.scriptDigit? ten ('0' :: letter :: rest) n := by
  intro hdecimal
  cases hdecimal with
  | plain hn =>
      cases hn with
      | digits hgroup _ =>
          rcases hgroup.second with rfl | ⟨d, hd⟩
          · rcases h with h | h <;> cases h
          · rw [h.scriptDigit?] at hd
            cases hd

/-- A number that the help text knows is no stray one. -/
theorem IsNumber.not_isStray (h : IsNumber value n) {m : Int} : ¬ IsStray value m := by
  intro hstray
  cases hstray with
  | behindMark hletter hmore _ =>
      cases h with
      | decimal hn => exact not_decimal_marked hletter hn
      | hexadecimal _ hgroup =>
          obtain ⟨c, hc, hunderscore, hnone⟩ := hmore
          rcases hgroup.forall c hc with h | ⟨d, hd⟩
          · exact hunderscore h
          · rw [hnone] at hd
            cases hd

/-- In a number that the help text knows there are no blanks. -/
theorem IsNumber.isBlank_eq_false (h : IsNumber value n) :
    ∀ c ∈ value, Text.isBlank c = false := by
  cases h with
  | decimal hn => exact hn.isBlank_eq_false
  | hexadecimal hletter hgroup =>
      have hmark := hletter.isBlank_eq_false
      simp only [List.forall_mem_cons]
      refine ⟨by decide, hmark, fun c hc => ?_⟩
      rcases hgroup.forall c hc with rfl | ⟨d, hd⟩
      · decide
      · exact Text.isBlank_of_scriptDigit? ((Text.keepsDigits_scriptDigit? sixteen).digit rfl hd)

/-- Hexadecimal digits are an integer of base sixteen, with nothing to pass over. -/
theorem signed_of_grouped {digits : List Nat} (h : Grouped sixteen.digit? rest digits) :
    Signed sixteen.scriptDigit? sixteen (rest.dropWhile isSpace) (sixteen.value digits) := by
  have hscript : Grouped sixteen.scriptDigit? rest digits :=
    h.transfer (Text.keepsDigits_scriptDigit? sixteen) (List.forall₂_refl rest)
  obtain ⟨c, more, d, rfl, hd⟩ := hscript.head
  have hspace : (c :: more).dropWhile isSpace = c :: more := by
    simp [Text.isSpace_of_scriptDigit? hd]
  rw [hspace]
  exact .plain (.digits hscript nofun)

/-- An integer of base sixteen in which hexadecimal digits and underscores stand alone is these
digits. -/
theorem grouped_of_signed
    (h : Signed sixteen.scriptDigit? sixteen (rest.dropWhile isSpace) n)
    (hdigits : ∀ c ∈ rest, c = '_' ∨ ∃ d, sixteen.digit? c = some d) :
    ∃ digits, Grouped sixteen.digit? rest digits ∧ n = sixteen.value digits := by
  have hspace : rest.dropWhile isSpace = rest := by
    refine Text.dropWhile_eq_self fun c hc => ?_
    rcases hdigits c (List.mem_of_mem_head? hc) with rfl | ⟨d, hd⟩
    · decide
    · exact Text.isSpace_of_scriptDigit? ((Text.keepsDigits_scriptDigit? sixteen).digit rfl hd)
  rw [hspace] at h
  have hno : ∀ c ∈ ['x', 'X', '+', '-'], c ∉ rest := by
    intro c hc hmem
    have hnone : c ≠ '_' ∧ sixteen.digit? c = none := by
      simp only [List.mem_cons, List.not_mem_nil, or_false] at hc
      rcases hc with rfl | rfl | rfl | rfl <;> decide
    rcases hdigits c hmem with h | ⟨d, hd⟩
    · exact hnone.1 h
    · rw [hnone.2] at hd
      cases hd
  cases h with
  | plus _ => exact absurd List.mem_cons_self (hno '+' (by decide))
  | minus _ => exact absurd List.mem_cons_self (hno '-' (by decide))
  | plain hn =>
      cases hn with
      | marked _ hletter _ _ =>
          exact absurd (List.mem_cons_of_mem _ List.mem_cons_self)
            (hno _ (by rcases hletter with rfl | rfl <;> decide))
      | @digits _ _ digits hgroup _ =>
          -- Every digit is hexadecimal, so its value in some script is its value in base sixteen.
          have hsame : List.Forall₂
              (fun c d => c = d ∧ (c = '_' ∨ ∃ n, sixteen.digit? c = some n)) rest rest :=
            List.forall₂_same.2 fun c hc => ⟨rfl, hdigits c hc⟩
          refine ⟨digits, hgroup.transfer ⟨?_, fun _ h => h.1⟩ hsame, rfl⟩
          rintro c _ m ⟨rfl, rfl | ⟨d, hd⟩⟩ hm
          · cases hm
          · rwa [scriptDigit?, hd, Option.some_or, ← hd] at hm

/-! ## The reader -/

theorem value?_of_trim_marked {text : List Char} (h : IsMark letter)
    (htrim : Text.trim text = '0' :: letter :: rest) :
    value? text = Text.integer? sixteen rest := by
  rw [value?, htrim]
  rcases h with rfl | rfl <;> rfl

theorem value?_of_trim_unmarked {text : List Char}
    (h : ∀ letter rest, Text.trim text = '0' :: letter :: rest → ¬ IsMark letter) :
    value? text = Text.integer? ten (Text.trim text) := by
  unfold value?
  split
  · exact absurd (.inl rfl) (h _ _ ‹_›)
  · exact absurd (.inr rfl) (h _ _ ‹_›)
  · rfl

/-- **What is taken for a number**: the numbers that the help text knows, and the stray ones. -/
theorem value?_eq_some_iff (text : List Char) (n : Int) :
    value? text = some n ↔ IsNumber (Text.trim text) n ∨ IsStray (Text.trim text) n := by
  by_cases h : ∃ letter rest, Text.trim text = '0' :: letter :: rest ∧ IsMark letter
  · obtain ⟨letter, rest, htrim, hletter⟩ := h
    have hend : ∀ c ∈ (Text.trim text).getLast?, Text.isBlank c = false :=
      Text.drop_getLast?_trimEnd
    have hlast : ∀ c ∈ rest.getLast?, isSpace c = false := by
      intro c hc
      have hc : c ∈ (['0', letter] ++ rest).getLast? := by
        rw [List.getLast?_append, Option.mem_def.1 hc]
        rfl
      exact Text.isSpace_of_isBlank_eq_false (hend c (htrim ▸ hc))
    rw [value?_of_trim_marked hletter htrim, Text.integer?_eq_some_iff,
      Text.strip_eq_dropWhile hlast, htrim]
    constructor
    · intro hn
      by_cases hmore : ∃ c ∈ rest, c ≠ '_' ∧ sixteen.digit? c = none
      · exact .inr (.behindMark hletter hmore hn)
      · have hdigits : ∀ c ∈ rest, c = '_' ∨ ∃ d, sixteen.digit? c = some d := by
          intro c hc
          by_contra hneither
          rw [not_or, ← Option.ne_none_iff_exists', not_not] at hneither
          exact hmore ⟨c, hc, hneither⟩
        obtain ⟨digits, hgroup, rfl⟩ := grouped_of_signed hn hdigits
        exact .inl (.hexadecimal hletter hgroup)
    · rintro (hn | hn)
      · cases hn with
        | decimal hn => exact absurd hn (not_decimal_marked hletter)
        | hexadecimal _ hgroup => exact signed_of_grouped hgroup
      · cases hn with
        | behindMark _ _ hn => exact hn
  · have hunmarked : ∀ letter rest, Text.trim text = '0' :: letter :: rest → ¬ IsMark letter :=
      fun letter rest htrim hletter => h ⟨letter, rest, htrim, hletter⟩
    rw [value?_of_trim_unmarked hunmarked, Text.integer?_eq_some_iff, Text.strip_trim]
    constructor
    · exact fun hn => .inl (.decimal hn)
    · generalize Text.trim text = value at hunmarked
      rintro (hn | hn)
      · cases hn with
        | decimal hn => exact hn
        | hexadecimal hletter _ => exact absurd hletter (hunmarked _ _ rfl)
      · cases hn with
        | behindMark hletter _ _ => exact absurd hletter (hunmarked _ _ rfl)

/-- The value stands behind the first equals sign, the name before it. -/
theorem parse_of_toList {text : String} {before after : List Char}
    (htext : text.toList = before ++ '=' :: after) (hbefore : '=' ∉ before) :
    parse text = ((value? after).elim (.error (.badDefine text))
      fun n => .ok (Text.trim before, n)) := by
  have hne : ∀ c ∈ before, (c != '=') = true := by
    intro c hc
    have hc : c ≠ '=' := by
      rintro rfl
      exact hbefore hc
    simpa using hc
  have hmem : '=' ∈ text.toList := by
    rw [htext]
    exact List.mem_append_right _ List.mem_cons_self
  have htake : text.toList.takeWhile (· != '=') = before := by
    rw [htext, List.takeWhile_append_of_pos hne]
    simp
  have hdrop : (text.toList.dropWhile (· != '=')).drop 1 = after := by
    rw [htext, List.dropWhile_append_of_pos hne]
    simp
  simp only [parse, htake, hdrop, if_pos hmem]
  cases value? after <;> rfl

/-- **What a definition is accepted for.**  The number behind the first equals sign may be one that
the help text knows or a stray one, which never is the same text; with all other texts the
definition is refused. -/
theorem parse_accepts {text : String} {before after : List Char}
    (htext : text.toList = before ++ '=' :: after) (hbefore : '=' ∉ before) :
    (∀ name n, parse text = .ok (name, n) ↔ name = Text.trim before ∧
      (IsNumber (Text.trim after) n ∨ IsStray (Text.trim after) n)) ∧
    (∀ error, parse text = .error error ↔ error = .badDefine text ∧
      ∀ n, ¬ IsNumber (Text.trim after) n ∧ ¬ IsStray (Text.trim after) n) ∧
    ∀ n m, IsNumber (Text.trim after) n → ¬ IsStray (Text.trim after) m := by
  rw [parse_of_toList htext hbefore]
  refine ⟨?_, ?_, fun n m hn => hn.not_isStray⟩
  · intro name n
    rw [← value?_eq_some_iff]
    cases value? after with
    | none => simp
    | some m => simp [eq_comm]
  · intro error
    have hnone : (∀ n, ¬ IsNumber (Text.trim after) n ∧ ¬ IsStray (Text.trim after) n) ↔
        value? after = none := by
      simp only [← not_or, ← value?_eq_some_iff, Option.eq_none_iff_forall_ne_some, ne_eq]
    rw [hnone]
    cases value? after with
    | none => simp [eq_comm]
    | some m => simp

theorem parse_accepts_hexadecimal :
    "a= 0x1_0".toList = ['a'] ++ '=' :: [' ', '0', 'x', '1', '_', '0'] ∧ '=' ∉ ['a'] ∧
      parse "a= 0x1_0" = .ok (['a'], 16) := by
  have hgroup : Grouped sixteen.digit? ['1', '_', '0'] [1, 0] := .underscore rfl (.single rfl)
  have hnumber : IsNumber ['0', 'x', '1', '_', '0'] 16 := .hexadecimal (.inl rfl) hgroup
  have htext : "a= 0x1_0".toList = ['a'] ++ '=' :: [' ', '0', 'x', '1', '_', '0'] := rfl
  have hname : '=' ∉ ['a'] := by simp
  exact ⟨htext, hname, ((parse_accepts htext hname).1 _ _).2 ⟨rfl, .inl hnumber⟩⟩

/-- With a sign behind the mark a text is no number that the help text knows, and is accepted. -/
theorem parse_sign_behind_mark :
    parse "a=0x-5" = .ok (['a'], -5) ∧ ∀ n, ¬ IsNumber ['0', 'x', '-', '5'] n := by
  refine ⟨by decide +kernel, fun n h => ?_⟩
  cases h with
  | decimal hn => exact not_decimal_marked (.inl rfl) hn
  | hexadecimal _ hgroup =>
      rcases hgroup.forall '-' List.mem_cons_self with h | ⟨d, hd⟩
      · exact absurd h (by decide)
      · cases hd

end StackAssembler.Command.Define

import StackAssembler.Proofs.Text.Numeral
import StackAssembler.Proofs.Text.Trim

/-!
# What is read as an integer

The texts that a reader takes for an integer, said as a grammar: blanks at both ends, one sign, the
mark of base sixteen, and digits that may have single underscores between them.  Digits come from
any script, so the grammar does not say which characters are digits; the reader puts all of them
into ASCII first, and what the grammar says of the one text it says of the other.

## Main definitions

* `Grouped`: digits with single underscores between them.
* `Base.Unsigned`, `Base.Signed`: digits with a mark in front, and with a sign.
* `Base.scriptDigit?`: the digits of a base, in any script.
* `strip`: a text without the blanks that a reader passes over.
-/

namespace StackAssembler.Text

/-! ## The grammar -/

/-- One or more digits, with single underscores between them. -/
inductive Grouped (digit : Char → Option Nat) : List Char → List Nat → Prop
  | single {c : Char} {d : Nat} : digit c = some d → Grouped digit [c] [d]
  | next {c : Char} {d : Nat} {text : List Char} {digits : List Nat} :
      digit c = some d → Grouped digit text digits → Grouped digit (c :: text) (d :: digits)
  | underscore {c : Char} {d : Nat} {text : List Char} {digits : List Nat} :
      digit c = some d → Grouped digit text digits →
      Grouped digit (c :: '_' :: text) (d :: digits)

namespace Base

/-- A natural number: digits of the base, not too many in base ten, and in base sixteen perhaps
behind a mark, which is a zero with the letter `x` and may end in an underscore. -/
inductive Unsigned (digit : Char → Option Nat) : Base → List Char → Nat → Prop
  | digits {base : Base} {text : List Char} {digits : List Nat} : Grouped digit text digits →
      (base = ten → digits.length ≤ digitLimit) → Unsigned digit base text (base.value digits)
  | marked {zero letter : Char} {rest text : List Char} {digits : List Nat} :
      digit zero = some 0 → letter = 'x' ∨ letter = 'X' → rest = text ∨ rest = '_' :: text →
      Grouped digit text digits →
      Unsigned digit sixteen (zero :: letter :: rest) (sixteen.value digits)

/-- An integer: a natural number that may have a sign in front. -/
inductive Signed (digit : Char → Option Nat) (base : Base) : List Char → Int → Prop
  | plain {text : List Char} {n : Nat} : Unsigned digit base text n → Signed digit base text n
  | plus {text : List Char} {n : Nat} :
      Unsigned digit base text n → Signed digit base ('+' :: text) n
  | minus {text : List Char} {n : Nat} :
      Unsigned digit base text n → Signed digit base ('-' :: text) (-n)

end Base

variable {digit other : Char → Option Nat} {base : Base} {text : List Char} {digits : List Nat}

theorem Grouped.head (h : Grouped digit text digits) :
    ∃ c rest d, text = c :: rest ∧ digit c = some d := by
  cases h with
  | single hd => exact ⟨_, _, _, rfl, hd⟩
  | next hd _ => exact ⟨_, _, _, rfl, hd⟩
  | underscore hd _ => exact ⟨_, _, _, rfl, hd⟩

/-- The second character is a digit, too, or an underscore. -/
theorem Grouped.second {c d : Char} {rest : List Char} (h : Grouped digit (c :: d :: rest) digits) :
    d = '_' ∨ ∃ n, digit d = some n := by
  cases h with
  | next _ hmore =>
      obtain ⟨e, more, n, he, hn⟩ := hmore.head
      cases he
      exact .inr ⟨n, hn⟩
  | underscore _ _ => exact .inl rfl

/-- All characters are underscores or digits. -/
theorem Grouped.forall (h : Grouped digit text digits) :
    ∀ c ∈ text, c = '_' ∨ ∃ d, digit c = some d := by
  induction h with
  | single hd => simpa using Or.inr ⟨_, hd⟩
  | next hd _ ih => exact List.forall_mem_cons.2 ⟨.inr ⟨_, hd⟩, ih⟩
  | underscore hd _ ih =>
      exact List.forall_mem_cons.2 ⟨.inr ⟨_, hd⟩, List.forall_mem_cons.2 ⟨.inl rfl, ih⟩⟩

/-- Digits alone are a group. -/
theorem grouped_of_reads (hne : text ≠ []) (h : base.Reads text digits) :
    Grouped base.digit? text digits := by
  induction h with
  | nil => exact absurd rfl hne
  | @cons c d rest more hd hrest ih =>
      cases hrest with
      | nil => exact .single hd
      | cons he hmore => exact .next hd (ih (List.cons_ne_nil _ _))

/-! ## Texts with the same digits -/

/-- A correspondence of characters that keeps the value of digits, and every character with a
meaning of its own. -/
structure KeepsDigits (R : Char → Char → Prop) (digit other : Char → Option Nat) : Prop where
  digit : ∀ {c d n}, R c d → digit c = some n → other d = some n
  same : ∀ {c d}, c ∈ ['_', 'x', 'X', '+', '-'] → R c d → c = d

section Transfer

variable {R : Char → Char → Prop} {image : List Char}

theorem Grouped.transfer (hR : KeepsDigits R digit other) (h : Grouped digit text digits)
    (himage : List.Forall₂ R text image) : Grouped other image digits := by
  induction h generalizing image with
  | single hd =>
      cases himage with
      | cons hc hrest =>
          cases hrest
          exact .single (hR.digit hc hd)
  | next hd _ ih =>
      cases himage with
      | cons hc hrest => exact .next (hR.digit hc hd) (ih hrest)
  | underscore hd _ ih =>
      cases himage with
      | cons hc hrest =>
          cases hrest with
          | cons hu hrest =>
              obtain rfl := hR.same (by decide) hu
              exact .underscore (hR.digit hc hd) (ih hrest)

theorem Base.Unsigned.transfer (hR : KeepsDigits R digit other) {n : Nat}
    (h : Unsigned digit base text n) (himage : List.Forall₂ R text image) :
    Unsigned other base image n := by
  cases h with
  | digits hdigits hlimit => exact .digits (hdigits.transfer hR himage) hlimit
  | marked hzero hletter hrest hdigits =>
      cases himage with
      | cons hz himage =>
          cases himage with
          | cons hl himage =>
              obtain rfl := hR.same (by rcases hletter with rfl | rfl <;> decide) hl
              rcases hrest with rfl | rfl
              · exact .marked (hR.digit hz hzero) hletter (.inl rfl) (hdigits.transfer hR himage)
              · cases himage with
                | cons hu himage =>
                    obtain rfl := hR.same (by decide) hu
                    exact .marked (hR.digit hz hzero) hletter (.inr rfl)
                      (hdigits.transfer hR himage)

/-- **Texts that correspond are the same integer.** -/
theorem Base.Signed.transfer (hR : KeepsDigits R digit other) {n : Int}
    (h : Signed digit base text n) (himage : List.Forall₂ R text image) :
    Signed other base image n := by
  cases h with
  | plain hn => exact .plain (hn.transfer hR himage)
  | plus hn =>
      cases himage with
      | cons hs hrest =>
          obtain rfl := hR.same (by decide) hs
          exact .plus (hn.transfer hR hrest)
  | minus hn =>
      cases himage with
      | cons hs hrest =>
          obtain rfl := hR.same (by decide) hs
          exact .minus (hn.transfer hR hrest)

end Transfer

/-! ## Reading ASCII -/

namespace Base

/-- What begins with a digit is read as digits, whether others stand before it or not. -/
theorem moreDigits?_of_digits? (h : base.digits? text = some digits) :
    base.moreDigits? text = some digits := by
  cases text with
  | nil => cases h
  | cons c rest =>
      have hc : c ≠ '_' := by
        rintro rfl
        cases base <;> cases h
      have hsame : base.moreDigits? (c :: rest) = base.digits? (c :: rest) := by
        simp [moreDigits?, digits?, hc]
      rw [hsame, h]

/-- **Groups of digits are read as their values**, and nothing else is. -/
theorem digits?_eq_some_iff (base : Base) (text : List Char) (digits : List Nat) :
    base.digits? text = some digits ↔ Grouped base.digit? text digits := by
  constructor
  · -- What has been read so far is a digit, so the rest may begin with an underscore.
    have hmore : ∀ rest more, base.moreDigits? rest = some more →
        ∀ c d, base.digit? c = some d → Grouped base.digit? (c :: rest) (d :: more) := by
      intro rest
      fun_induction base.moreDigits? rest with
      | case1 =>
          rintro more ⟨⟩ c d hd
          exact .single hd
      | case2 e rest ih =>
          intro more h c d hd
          simp only [bind, Option.bind_eq_some_iff, pure, Option.some.injEq] at h
          obtain ⟨n, hn, ns, hns, rfl⟩ := h
          exact .underscore hd (ih ns hns e n hn)
      | case3 e rest _ ih =>
          intro more h c d hd
          simp only [bind, Option.bind_eq_some_iff, pure, Option.some.injEq] at h
          obtain ⟨n, hn, ns, hns, rfl⟩ := h
          exact .next hd (ih ns hns e n hn)
    intro h
    cases text with
    | nil => cases h
    | cons c rest =>
        simp only [digits?, bind, Option.bind_eq_some_iff, pure, Option.some.injEq] at h
        obtain ⟨d, hd, more, hrest, rfl⟩ := h
        exact hmore rest more hrest c d hd
  · intro h
    induction h with
    | single hd => simp [digits?, hd, moreDigits?]
    | next hd _ ih => simp [digits?, hd, moreDigits?_of_digits? ih]
    | @underscore c d rest more hd hgroup ih =>
        obtain ⟨e, rest, n, rfl, -⟩ := hgroup.head
        have hmore : base.moreDigits? ('_' :: e :: rest) = some more := ih
        simp [digits?, hd, hmore]

/-- A zero is the only digit that can begin a mark. -/
theorem digit?_eq_zero_iff (base : Base) (c : Char) : base.digit? c = some 0 ↔ c = '0' := by
  constructor
  · intro h
    have hrange := range_of_digit? h
    have hzero : c.toNat = '0'.toNat := by
      cases base <;> simp only [digit?] at h <;> split_ifs at h <;> simp at h <;>
        simp only [Char.reduceToNat] <;> omega
    exact Char.toNat_inj.1 hzero
  · rintro rfl
    cases base <;> rfl

/-- What is behind the mark, if there is one, must be a group of digits. -/
theorem exists_skipMark_iff (base : Base) (text : List Char) (n : Nat) :
    (∃ digits, Grouped base.digit? (base.skipMark text) digits ∧
      (base = ten → digits.length ≤ digitLimit) ∧ base.value digits = n) ↔
      Unsigned base.digit? base text n := by
  constructor
  · rintro ⟨digits, hgroup, hlimit, rfl⟩
    unfold skipMark at hgroup
    split at hgroup
    · exact .marked rfl (.inl rfl) (.inr rfl) hgroup
    · exact .marked rfl (.inr rfl) (.inr rfl) hgroup
    · exact .marked rfl (.inl rfl) (.inl rfl) hgroup
    · exact .marked rfl (.inr rfl) (.inl rfl) hgroup
    · exact .digits hgroup hlimit
  · intro h
    cases h with
    | @digits _ _ digits hgroup hlimit =>
        refine ⟨digits, ?_, hlimit, rfl⟩
        have hmark : base.skipMark text = text := by
          unfold skipMark
          split
          all_goals first
            | rfl
            | rcases hgroup.second with h | ⟨_, h⟩ <;> cases h
        rwa [hmark]
    | @marked zero letter rest text digits hzero hletter hrest hgroup =>
        refine ⟨digits, ?_, nofun, rfl⟩
        obtain rfl := (digit?_eq_zero_iff ..).1 hzero
        obtain ⟨c, more, d, rfl, hd⟩ := hgroup.head
        have hc : c ≠ '_' := by
          rintro rfl
          cases hd
        rcases hletter with rfl | rfl <;> rcases hrest with rfl | rfl <;> simpa [skipMark, hc]

/-- **What is read as a natural number.** -/
theorem natural?_eq_some_iff (base : Base) (text : List Char) (n : Nat) :
    base.natural? text = some n ↔ Unsigned base.digit? base text n := by
  rw [← exists_skipMark_iff, natural?]
  simp only [bind, Option.bind_eq_some_iff, digits?_eq_some_iff]
  refine exists_congr fun digits => and_congr_right fun _ => ?_
  by_cases hlimit : base = ten → digits.length ≤ digitLimit
  · have hfew : ¬ (base = ten ∧ digitLimit < digits.length) :=
      fun h => Nat.not_le.2 h.2 (hlimit h.1)
    rw [if_neg hfew]
    simpa using fun _ => hlimit
  · have hmany : base = ten ∧ digitLimit < digits.length := by
      simpa using hlimit
    rw [if_pos hmany]
    exact ⟨nofun, fun h => absurd h.1 hlimit⟩

/-- A natural number begins with a digit. -/
theorem Unsigned.head {n : Nat} (h : Unsigned digit base text n) :
    ∃ c rest d, text = c :: rest ∧ digit c = some d := by
  cases h with
  | digits hgroup _ => exact hgroup.head
  | marked hzero _ _ _ => exact ⟨_, _, _, rfl, hzero⟩

end Base

/-! ## Putting a text into ASCII -/

/-- The value of a digit of the base, which may be of any script. -/
def Base.scriptDigit? (base : Base) (c : Char) : Option Nat :=
  (base.digit? c).or (digitValue? c)

/-- A character that a reader passes over at either end. -/
def isSpace (c : Char) : Bool :=
  isPadding c || (0x7f ≤ c.toNat && isBlank c)

/-- A text less the characters at both ends that a reader passes over. -/
def strip (text : List Char) : List Char :=
  trimEnd isSpace (text.dropWhile isSpace)

/-- No blank is a digit. -/
theorem digitValue?_of_isBlank {c : Char} (h : isBlank c = true) : digitValue? c = none := by
  have hall : ∀ first ∈ digitZeros, ∀ k < 10, isBlank (Char.ofNat (first + k)) = false := by
    decide +kernel
  rw [digitValue?, Option.map_eq_none_iff, List.find?_eq_none]
  intro first hfirst hrange
  simp only [Bool.and_eq_true, decide_eq_true_eq] at hrange
  have hk := hall first hfirst (c.toNat - first) (by omega)
  rw [Nat.add_sub_cancel' hrange.1, Char.ofNat_toNat, h] at hk
  cases hk

/-- In ASCII the digits of all scripts are those of base ten. -/
theorem digitValue?_of_lt {c : Char} (h : c.toNat < 0x7f) : digitValue? c = Base.ten.digit? c :=
  code_forall (p := fun c => digitValue? c = Base.ten.digit? c) (by decide +kernel) c h

/-- So they add nothing to the digits of the base. -/
theorem Base.scriptDigit?_of_lt {c : Char} (h : c.toNat < 0x7f) :
    base.scriptDigit? c = base.digit? c := by
  rw [scriptDigit?, digitValue?_of_lt h]
  cases base with
  | ten => exact Option.or_self
  | sixteen =>
      simp only [digit?]
      split_ifs <;> rfl

/-- The ASCII form of a character, by cases. -/
theorem asciiForm?_cases {c a : Char} (h : asciiForm? c = some a) :
    (c.toNat < 0x7f ∧ a = c) ∨ (0x7f ≤ c.toNat ∧ isBlank c = true ∧ a = ' ') ∨
      (0x7f ≤ c.toNat ∧ isBlank c = false ∧
        ∃ d < 10, digitValue? c = some d ∧ a = Char.ofNat (0x30 + d)) := by
  unfold asciiForm? at h
  split_ifs at h with hlow hblank
  · cases h
    exact .inl ⟨hlow, rfl⟩
  · cases h
    exact .inr (.inl ⟨Nat.le_of_not_lt hlow, hblank, rfl⟩)
  · obtain ⟨d, hd, rfl⟩ := Option.map_eq_some_iff.1 h
    exact .inr (.inr ⟨Nat.le_of_not_lt hlow, eq_false_of_ne_true hblank, d, digitValue?_lt hd, hd,
      rfl⟩)

/-- Outside ASCII no character is a digit of the base by itself. -/
theorem Base.digit?_of_le {c : Char} (h : 0x7f ≤ c.toNat) : base.digit? c = none := by
  by_contra hne
  obtain ⟨d, hd⟩ := Option.ne_none_iff_exists'.1 hne
  have hrange := range_of_digit? hd
  omega

theorem digit?_of_asciiForm? {c a : Char} (h : asciiForm? c = some a) :
    base.digit? a = base.scriptDigit? c := by
  rcases asciiForm?_cases h with ⟨hlow, rfl⟩ | ⟨hhigh, hblank, rfl⟩ | ⟨hhigh, -, d, hd, hvalue, rfl⟩
  · exact (Base.scriptDigit?_of_lt hlow).symm
  · rw [Base.scriptDigit?, Base.digit?_of_le hhigh, digitValue?_of_isBlank hblank]
    cases base <;> rfl
  · have hall : ∀ d < 10, base.digit? (Char.ofNat (0x30 + d)) = some d := by
      cases base <;> decide +kernel
    rw [Base.scriptDigit?, Base.digit?_of_le hhigh, hvalue, hall d hd]
    rfl

theorem isPadding_of_le {c : Char} (h : 0x7f ≤ c.toNat) : isPadding c = false := by
  have hspace : c ≠ ' ' := by
    rintro rfl
    exact absurd h (by decide)
  have hlow : ¬ c.toNat ≤ 0x0d := by omega
  simp [isPadding, hspace, hlow]

theorem isPadding_of_asciiForm? {c a : Char} (h : asciiForm? c = some a) :
    isSpace c = isPadding a := by
  rcases asciiForm?_cases h with ⟨hlow, rfl⟩ | ⟨hhigh, hblank, rfl⟩ | ⟨hhigh, hblank, d, hd, -, rfl⟩
  · have hnot : ¬ 0x7f ≤ a.toNat := Nat.not_le.2 hlow
    simp [isSpace, hnot]
  · simp [isSpace, hhigh, hblank, isPadding]
  · have hall : ∀ d < 10, isPadding (Char.ofNat (0x30 + d)) = false := by decide +kernel
    rw [isSpace, isPadding_of_le hhigh, hblank, hall d hd]
    simp

theorem exists_asciiForm?_of_isSpace {c : Char} (h : isSpace c = true) :
    ∃ a, asciiForm? c = some a := by
  by_cases hlow : c.toNat < 0x7f
  · exact ⟨c, if_pos hlow⟩
  · rw [isSpace, isPadding_of_le (Nat.le_of_not_lt hlow), Bool.false_or, Bool.and_eq_true] at h
    exact ⟨' ', by simp [asciiForm?, hlow, h.2]⟩

theorem exists_asciiForm?_of_scriptDigit? {c : Char} {d : Nat} (h : base.scriptDigit? c = some d) :
    ∃ a, asciiForm? c = some a := by
  by_cases hlow : c.toNat < 0x7f
  · exact ⟨c, if_pos hlow⟩
  · rw [Base.scriptDigit?, Base.digit?_of_le (Nat.le_of_not_lt hlow), Option.none_or] at h
    cases hblank : isBlank c with
    | true => exact ⟨' ', by simp [asciiForm?, hlow, hblank]⟩
    | false => exact ⟨_, by simp [asciiForm?, hlow, hblank, h]; rfl⟩

/-- Only ASCII itself has these forms. -/
theorem eq_of_asciiForm? {c a : Char} (h : asciiForm? c = some a)
    (ha : a ∈ ['_', 'x', 'X', '+', '-']) : a = c := by
  rcases asciiForm?_cases h with ⟨-, rfl⟩ | ⟨-, -, rfl⟩ | ⟨-, -, d, hd, -, rfl⟩
  · rfl
  · exact absurd ha (by decide)
  · have hall : ∀ d < 10, Char.ofNat (0x30 + d) ∉ ['_', 'x', 'X', '+', '-'] := by decide +kernel
    exact absurd ha (hall d hd)

theorem asciiForm?_of_mem {c : Char} (hc : c ∈ ['_', 'x', 'X', '+', '-']) :
    asciiForm? c = some c := by
  simp only [List.mem_cons, List.not_mem_nil, or_false] at hc
  rcases hc with rfl | rfl | rfl | rfl | rfl <;> rfl

/-- The ASCII form keeps digits, and what means something keeps its form. -/
theorem keepsDigits_asciiForm? (base : Base) :
    KeepsDigits (fun c a => asciiForm? c = some a) base.scriptDigit? base.digit? where
  digit h hd := by rwa [digit?_of_asciiForm? h]
  same hc h := Option.some.inj ((asciiForm?_of_mem hc).symm.trans h)

theorem keepsDigits_asciiForm?_flip (base : Base) :
    KeepsDigits (fun a c => asciiForm? c = some a) base.digit? base.scriptDigit? where
  digit h hd := by rwa [← digit?_of_asciiForm? h]
  same ha h := eq_of_asciiForm? h ha

/-! ## Texts that correspond -/

/-- A traversal that succeeds, element by element. -/
theorem mapM_eq_some_iff_forall₂ {f : Char → Option Char} {text image : List Char} :
    text.mapM f = some image ↔ List.Forall₂ (fun c a => f c = some a) text image := by
  induction text generalizing image with
  | nil => simp [eq_comm]
  | cons c text ih =>
      simp only [List.mapM_cons, Option.bind_eq_bind, Option.bind_eq_some_iff, ih, Option.pure_def,
        Option.some.injEq, List.forall₂_cons_left_iff]
      constructor
      · rintro ⟨a, ha, rest, hrest, rfl⟩
        exact ⟨a, rest, ha, hrest, rfl⟩
      · rintro ⟨a, rest, ha, hrest, rfl⟩
        exact ⟨a, ha, rest, hrest, rfl⟩

theorem exists_mapM_eq_some {f : Char → Option Char} {text : List Char}
    (h : ∀ c ∈ text, ∃ a, f c = some a) : ∃ image, text.mapM f = some image := by
  induction text with
  | nil => exact ⟨[], rfl⟩
  | cons c text ih =>
      rw [List.forall_mem_cons] at h
      obtain ⟨a, ha⟩ := h.1
      obtain ⟨image, himage⟩ := ih h.2
      exact ⟨a :: image, by simp [ha, himage]⟩

/-! ## Reading -/

theorem Base.Unsigned.forall {n : Nat} (h : Unsigned digit base text n) :
    ∀ c ∈ text, c ∈ ['_', 'x', 'X'] ∨ ∃ d, digit c = some d := by
  have hgroup : ∀ {text digits}, Grouped digit text digits →
      ∀ c ∈ text, c ∈ ['_', 'x', 'X'] ∨ ∃ d, digit c = some d := by
    intro text digits h c hc
    exact (h.forall c hc).imp_left (by rintro rfl; decide)
  cases h with
  | digits hdigits _ => exact hgroup hdigits
  | marked hzero hletter hrest hdigits =>
      refine List.forall_mem_cons.2 ⟨.inr ⟨_, hzero⟩, List.forall_mem_cons.2 ⟨.inl ?_, ?_⟩⟩
      · rcases hletter with rfl | rfl <;> decide
      · rcases hrest with rfl | rfl
        · exact hgroup hdigits
        · exact List.forall_mem_cons.2 ⟨.inl (by decide), hgroup hdigits⟩

theorem Base.Signed.forall {n : Int} (h : Signed digit base text n) :
    ∀ c ∈ text, c ∈ ['_', 'x', 'X', '+', '-'] ∨ ∃ d, digit c = some d := by
  have hunsigned : ∀ {text n}, Unsigned digit base text n →
      ∀ c ∈ text, c ∈ ['_', 'x', 'X', '+', '-'] ∨ ∃ d, digit c = some d :=
    fun h c hc => (h.forall c hc).imp_left (List.mem_append_left ['+', '-'])
  cases h with
  | plain hn => exact hunsigned hn
  | plus hn => exact List.forall_mem_cons.2 ⟨.inl (by decide), hunsigned hn⟩
  | minus hn => exact List.forall_mem_cons.2 ⟨.inl (by decide), hunsigned hn⟩

namespace Base

/-- A sign is no digit, so a natural number does not begin with one. -/
theorem not_unsigned_of_sign {c : Char} (hc : c = '+' ∨ c = '-') {n : Nat} :
    ¬ Unsigned base.digit? base (c :: text) n := by
  intro h
  obtain ⟨d, rest, m, ⟨⟩, hd⟩ := h.head
  rcases hc with rfl | rfl <;> cases base <;> cases hd

theorem signed_minus_iff {n : Int} :
    Signed base.digit? base ('-' :: text) n ↔
      ∃ m : Nat, Unsigned base.digit? base text m ∧ -(m : Int) = n := by
  constructor
  · intro h
    cases h with
    | plain hm => exact absurd hm (not_unsigned_of_sign (.inr rfl))
    | minus hm => exact ⟨_, hm, rfl⟩
  · rintro ⟨m, hm, rfl⟩
    exact .minus hm

theorem signed_plus_iff {n : Int} :
    Signed base.digit? base ('+' :: text) n ↔
      ∃ m : Nat, Unsigned base.digit? base text m ∧ (m : Int) = n := by
  constructor
  · intro h
    cases h with
    | plain hm => exact absurd hm (not_unsigned_of_sign (.inl rfl))
    | plus hm => exact ⟨_, hm, rfl⟩
  · rintro ⟨m, hm, rfl⟩
    exact .plus hm

theorem signed_iff_of_no_sign (hminus : ∀ rest, text = '-' :: rest → False)
    (hplus : ∀ rest, text = '+' :: rest → False) {n : Int} :
    Signed base.digit? base text n ↔
      ∃ m : Nat, Unsigned base.digit? base text m ∧ (m : Int) = n := by
  constructor
  · intro h
    cases h with
    | plain hm => exact ⟨_, hm, rfl⟩
    | plus _ => exact absurd rfl (hplus _)
    | minus _ => exact absurd rfl (hminus _)
  · rintro ⟨m, hm, rfl⟩
    exact .plain hm

end Base

/-- What is read of a text in ASCII, which has no blanks around it. -/
theorem integer?_eq_some_iff_ascii (base : Base) (text : List Char) (n : Int) :
    integer? base text = some n ↔ ∃ ascii, text.mapM asciiForm? = some ascii ∧
      Base.Signed base.digit? base (trimEnd isPadding (ascii.dropWhile isPadding)) n := by
  rw [integer?]
  simp only [Option.bind_eq_bind, Option.bind_eq_some_iff]
  refine exists_congr fun ascii => and_congr_right fun _ => ?_
  split
  · next h => simp [h, Base.signed_minus_iff, Base.natural?_eq_some_iff, Option.bind_eq_some_iff]
  · next h => simp [h, Base.signed_plus_iff, Base.natural?_eq_some_iff, Option.bind_eq_some_iff]
  · next hminus hplus =>
      simp [Base.signed_iff_of_no_sign hminus hplus, Base.natural?_eq_some_iff,
        Option.bind_eq_some_iff]

/-- **What is read as an integer**: a text that is one, in digits of any script, once the blanks
around it are gone. -/
theorem integer?_eq_some_iff (base : Base) (text : List Char) (n : Int) :
    integer? base text = some n ↔ Base.Signed base.scriptDigit? base (strip text) n := by
  rw [integer?_eq_some_iff_ascii]
  have htrim : ∀ ascii, text.mapM asciiForm? = some ascii →
      List.Forall₂ (fun c a => asciiForm? c = some a) (strip text)
        (trimEnd isPadding (ascii.dropWhile isPadding)) :=
    fun ascii h => forall₂_trimEnd (R := fun c a => asciiForm? c = some a)
      (fun _ _ => isPadding_of_asciiForm?) (mapM_eq_some_iff_forall₂.1 h)
  constructor
  · rintro ⟨ascii, hascii, h⟩
    exact h.transfer (keepsDigits_asciiForm?_flip base) (htrim ascii hascii).flip
  · intro h
    -- What is trimmed away has a form as well.
    have hform : ∀ c ∈ text, ∃ a, asciiForm? c = some a := by
      intro c hc
      cases hspace : isSpace c with
      | true => exact exists_asciiForm?_of_isSpace hspace
      | false =>
          rcases h.forall c (mem_trimEnd_dropWhile hc hspace) with hc | ⟨d, hd⟩
          · exact ⟨c, asciiForm?_of_mem hc⟩
          · exact exists_asciiForm?_of_scriptDigit? hd
    obtain ⟨ascii, hascii⟩ := exists_mapM_eq_some hform
    exact ⟨ascii, hascii, h.transfer (keepsDigits_asciiForm? base) (htrim ascii hascii)⟩

/-! ## Texts with nothing to strip -/

theorem isBlank_of_isSpace {c : Char} (h : isSpace c = true) : isBlank c = true := by
  by_cases hlow : c.toNat < 0x7f
  · revert h
    exact code_forall (p := fun c => isSpace c = true → isBlank c = true) (by decide +kernel) c
      hlow
  · rw [isSpace, isPadding_of_le (Nat.le_of_not_lt hlow), Bool.false_or, Bool.and_eq_true] at h
    exact h.2

theorem isSpace_of_isBlank_eq_false {c : Char} (h : isBlank c = false) : isSpace c = false := by
  by_contra hspace
  rw [isBlank_of_isSpace (eq_true_of_ne_false hspace)] at h
  cases h

/-- A digit is no blank. -/
theorem isBlank_of_scriptDigit? {c : Char} {d : Nat} (h : base.scriptDigit? c = some d) :
    isBlank c = false := by
  by_cases hlow : c.toNat < 0x7f
  · rw [Base.scriptDigit?_of_lt hlow] at h
    have hall := code_forall (p := fun c => (base.digit? c).isSome = true → isBlank c = false)
      (by cases base <;> decide +kernel) c hlow
    exact hall (by rw [h]; rfl)
  · rw [Base.scriptDigit?, Base.digit?_of_le (Nat.le_of_not_lt hlow), Option.none_or] at h
    by_contra hblank
    rw [digitValue?_of_isBlank (eq_true_of_ne_false hblank)] at h
    cases h

theorem isSpace_of_scriptDigit? {c : Char} {d : Nat} (h : base.scriptDigit? c = some d) :
    isSpace c = false :=
  isSpace_of_isBlank_eq_false (isBlank_of_scriptDigit? h)

/-- In an integer there are no blanks. -/
theorem Base.Signed.isBlank_eq_false {n : Int} (h : Signed base.scriptDigit? base text n) :
    ∀ c ∈ text, isBlank c = false := by
  intro c hc
  rcases h.forall c hc with hsign | ⟨d, hd⟩
  · simp only [List.mem_cons, List.not_mem_nil, or_false] at hsign
    rcases hsign with rfl | rfl | rfl | rfl | rfl <;> decide
  · exact isBlank_of_scriptDigit? hd

/-- A text that does not end in a space is stripped at the front alone. -/
theorem strip_eq_dropWhile (h : ∀ c ∈ text.getLast?, isSpace c = false) :
    strip text = text.dropWhile isSpace := by
  refine trimEnd_eq_self fun c hc => ?_
  obtain ⟨front, hfront⟩ := List.dropWhile_suffix (l := text) isSpace
  refine h c ?_
  rw [← hfront, List.getLast?_append, Option.mem_def.1 hc]
  rfl

/-- Without blanks around it a text has nothing to strip. -/
theorem strip_trim (text : List Char) : strip (trim text) = trim text := by
  have hlast : ∀ c ∈ (trim text).getLast?, isBlank c = false := drop_getLast?_trimEnd
  rw [strip_eq_dropWhile fun c hc => isSpace_of_isBlank_eq_false (hlast c hc)]
  exact dropWhile_eq_self fun c hc => isSpace_of_isBlank_eq_false (drop_head?_trimEnd c hc)

/-- The digits of a base are among those of any script. -/
theorem keepsDigits_scriptDigit? (base : Base) :
    KeepsDigits Eq base.digit? base.scriptDigit? where
  digit h hd := by
    subst h
    rw [Base.scriptDigit?, hd, Option.some_or]
  same _ h := h

/-- **Digits are read as the number that they denote**, if there are not too many of them. -/
theorem integer?_of_denotes {n : Nat} (hne : text ≠ []) (h : base.Denotes text n)
    (hlimit : base = .ten → text.length ≤ digitLimit) : integer? base text = some (n : Int) := by
  obtain ⟨digits, hdigits, rfl⟩ := h
  have hgroup : Grouped base.scriptDigit? text digits :=
    (grouped_of_reads hne hdigits).transfer (keepsDigits_scriptDigit? base) (List.forall₂_refl text)
  have hspace : ∀ c ∈ text, isSpace c = false := by
    refine hdigits.forall fun c d hd => ?_
    exact isSpace_of_scriptDigit? ((keepsDigits_scriptDigit? base).digit rfl hd)
  have hstrip : strip text = text := by
    rw [strip_eq_dropWhile fun c hc => hspace c (List.mem_of_mem_getLast? hc)]
    exact dropWhile_eq_self fun c hc => hspace c (List.mem_of_mem_head? hc)
  rw [integer?_eq_some_iff, hstrip]
  exact .plain (.digits hgroup fun hten => List.Forall₂.length_eq hdigits ▸ hlimit hten)

end StackAssembler.Text

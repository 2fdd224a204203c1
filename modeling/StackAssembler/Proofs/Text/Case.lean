import StackAssembler.Text.Case
import Mathlib.Data.List.Forall2
import Mathlib.Tactic.Common

/-!
# Lower case

The case mapping of all characters is large, and which form a letter takes can depend on the letters
around it.  Of all this `Text.lower` has only what concerns ASCII.  `IsLowering` says what that is,
and any two mappings of which it holds agree on whether a text is a given word of ASCII letters;
only `k`, which is the lower case of two letters, is no such letter.

## Main definitions

* `LowersTo`: what a character may be in lower case.
* `IsLowering`: a mapping of texts to lower case, as far as ASCII is concerned.
-/

namespace StackAssembler.Text

/-- What a character may be in lower case. -/
inductive LowersTo (c : Char) : List Char → Prop
  /-- The lower case of ASCII. -/
  | ascii : c.toNat < 128 → LowersTo c [c.toLower]
  /-- The Kelvin sign is a `k`. -/
  | kelvin : c = '\u212a' → LowersTo c ['k']
  /-- The dotted `İ` is an `i` with a dot of its own. -/
  | dotted : c = '\u0130' → LowersTo c ['i', '\u0307']
  /-- All other characters stay outside ASCII. -/
  | other {image : List Char} : 128 ≤ c.toNat → image ≠ [] → (∀ d ∈ image, 128 ≤ d.toNat) →
      LowersTo c image

/-- The mapping takes texts to lower case, character by character, and each character as the others
allow. -/
def IsLowering (lowering : List Char → List Char) : Prop :=
  ∀ text, ∃ images, lowering text = images.flatten ∧ List.Forall₂ LowersTo text images

theorem toLower_of_le {c : Char} (h : 128 ≤ c.toNat) : c.toLower = c := by
  refine dif_neg ?_
  rintro ⟨-, hZ⟩
  have hle : c.toNat ≤ 90 := hZ
  omega

/-- The case mapping of this library is one. -/
theorem isLowering_lower : IsLowering lower := by
  intro text
  refine ⟨text.map lowerChar, rfl, ?_⟩
  rw [List.forall₂_map_right_iff, List.forall₂_same]
  intro c _
  rw [lowerChar]
  split_ifs with hdotted hkelvin
  · exact .dotted hdotted
  · exact .kelvin hkelvin
  · by_cases hascii : c.toNat < 128
    · exact .ascii hascii
    · have hle := Nat.le_of_not_lt hascii
      rw [toLower_of_le hle]
      exact .other hle (List.cons_ne_nil _ _) (by simpa using hle)

/-- A character outside ASCII leaves a `k` or another character outside ASCII. -/
theorem LowersTo.ascii_or_foreign {c : Char} {image : List Char} (h : LowersTo c image) :
    c.toNat < 128 ∧ image = [c.toLower] ∨
      128 ≤ c.toNat ∧ ∃ d ∈ image, ¬ (d.toNat < 128 ∧ d ≠ 'k') := by
  cases h with
  | ascii hc => exact .inl ⟨hc, rfl⟩
  | kelvin hc => exact .inr ⟨by rw [hc]; decide, 'k', List.mem_cons_self, fun hd => hd.2 rfl⟩
  | dotted hc => exact .inr ⟨by rw [hc]; decide, '\u0307', by decide, by decide⟩
  | other hle hne hall =>
      obtain ⟨d, hd⟩ := List.exists_mem_of_ne_nil image hne
      exact .inr ⟨hle, d, hd, fun hlt => absurd hlt.1 (Nat.not_lt.2 (hall d hd))⟩

/-- **A text is a word of ASCII in lower case exactly if it is so letter by letter**, whichever
mapping is used, as long as the word has no `k`. -/
theorem IsLowering.eq_iff {lowering : List Char → List Char} (h : IsLowering lowering)
    {word : List Char} (hword : ∀ d ∈ word, d.toNat < 128 ∧ d ≠ 'k') (text : List Char) :
    lowering text = word ↔ text.map Char.toLower = word := by
  obtain ⟨images, hlowering, himages⟩ := h text
  rw [hlowering]
  clear h hlowering
  induction himages generalizing word with
  | nil => rfl
  | @cons c image text images himage _ ih =>
      rw [List.flatten_cons, List.map_cons]
      rcases himage.ascii_or_foreign with ⟨-, rfl⟩ | ⟨hle, d, hd, hforeign⟩
      · rw [List.singleton_append]
        cases word with
        | nil => simp
        | cons e word =>
            rw [List.cons_eq_cons, List.cons_eq_cons,
              ih fun d hd => hword d (List.mem_cons_of_mem e hd)]
      · -- Neither side can be the word, which holds nothing of the kind.
        rw [toLower_of_le hle]
        constructor
        · rintro rfl
          exact absurd (hword d (List.mem_append_left _ hd)) hforeign
        · rintro rfl
          have hlt := (hword c List.mem_cons_self).1
          omega

end StackAssembler.Text

import StackAssembler.Text.Blank
import Mathlib.Data.List.DropRight
import Mathlib.Data.List.Forall2
import Mathlib.Data.List.TakeWhile

/-!
# Trimming

A trimmed text begins and ends with a character that stays, a text that does so is trimmed already,
and texts that correspond character by character still correspond when both are trimmed.
-/

namespace StackAssembler.Text

variable {drop : Char → Bool} {text : List Char}

/-- At the ends of a trimmed text nothing is left to trim. -/
theorem drop_head?_trimEnd : ∀ c ∈ (trimEnd drop (text.dropWhile drop)).head?, drop c = false := by
  intro c hc
  obtain ⟨back, hback⟩ : trimEnd drop (text.dropWhile drop) <+: text.dropWhile drop :=
    List.rdropWhile_prefix _ _
  have hhead := List.head?_dropWhile_not drop text
  rw [← hback, List.head?_append, Option.mem_def.1 hc] at hhead
  exact hhead

theorem drop_getLast?_trimEnd : ∀ c ∈ (trimEnd drop text).getLast?, drop c = false := by
  intro c hc
  have hlast := List.head?_dropWhile_not drop text.reverse
  rw [trimEnd, List.getLast?_reverse] at hc
  rw [Option.mem_def.1 hc] at hlast
  exact hlast

/-- Where there is nothing to trim a text stays. -/
theorem trimEnd_eq_self (h : ∀ c ∈ text.getLast?, drop c = false) : trimEnd drop text = text :=
  List.rdropWhile_eq_self_iff.2 fun hne => by simp [h _ (List.getLast?_eq_getLast_of_ne_nil hne)]

theorem dropWhile_eq_self (h : ∀ c ∈ text.head?, drop c = false) :
    text.dropWhile drop = text := by
  cases text with
  | nil => rfl
  | cons c text => simp [h c rfl]

/-- What is not trimmed away stays. -/
theorem mem_dropWhile {c : Char} (hc : c ∈ text) (hdrop : drop c = false) :
    c ∈ text.dropWhile drop := by
  rw [← List.takeWhile_append_dropWhile (p := drop) (l := text), List.mem_append] at hc
  rcases hc with hc | hc
  · rw [List.mem_takeWhile_imp hc] at hdrop
    cases hdrop
  · exact hc

theorem mem_trimEnd_dropWhile {c : Char} (hc : c ∈ text) (hdrop : drop c = false) :
    c ∈ trimEnd drop (text.dropWhile drop) :=
  List.mem_reverse.2 (mem_dropWhile (List.mem_reverse.2 (mem_dropWhile hc hdrop)) hdrop)

/-- Only what is trimmed away may stand around a text. -/
theorem trimEnd_dropWhile_append {front back : List Char} (hfront : ∀ c ∈ front, drop c = true)
    (hback : ∀ c ∈ back, drop c = true) (hhead : ∀ c ∈ text.head?, drop c = false)
    (hlast : ∀ c ∈ text.getLast?, drop c = false) :
    trimEnd drop ((front ++ text ++ back).dropWhile drop) = text := by
  have htrimEnd : trimEnd drop (text ++ back) = text := by
    rw [trimEnd, List.reverse_append, List.dropWhile_append_of_pos fun c hc =>
      hback c (List.mem_reverse.1 hc)]
    exact trimEnd_eq_self hlast
  rw [List.append_assoc, List.dropWhile_append_of_pos hfront]
  cases text with
  | nil =>
      rw [List.nil_append, List.dropWhile_eq_nil_iff.2 hback]
      rfl
  | cons c text =>
      have hstays : (c :: text ++ back).dropWhile drop = c :: text ++ back :=
        dropWhile_eq_self hhead
      rwa [hstays]

/-! ## Texts that correspond -/

variable {R : Char → Char → Prop} {drop' : Char → Bool} {image : List Char}

theorem forall₂_dropWhile (hdrop : ∀ c a, R c a → drop c = drop' a)
    (h : List.Forall₂ R text image) :
    List.Forall₂ R (text.dropWhile drop) (image.dropWhile drop') := by
  induction h with
  | nil => exact .nil
  | @cons c a _ _ hc hrest ih =>
      rw [List.dropWhile_cons, List.dropWhile_cons, ← hdrop c a hc]
      split
      · exact ih
      · exact .cons hc hrest

theorem forall₂_trimEnd (hdrop : ∀ c a, R c a → drop c = drop' a)
    (h : List.Forall₂ R text image) :
    List.Forall₂ R (trimEnd drop (text.dropWhile drop)) (trimEnd drop' (image.dropWhile drop')) :=
  List.rel_reverse (forall₂_dropWhile hdrop (List.rel_reverse (forall₂_dropWhile hdrop h)))

end StackAssembler.Text

import StackAssembler.Text.EditDistance
import Mathlib.Order.Bounds.Basic
import Mathlib.Tactic.Common

/-!
# The least number of edits

Edits turn a word into another one by one, anywhere and in any order.  An *alignment* makes them
from one end of the words to the other, at most one for a character, and no edits cost less than an
alignment does.  The table of distances follows alignments: a row holds what it costs to align the
characters so far with the beginnings of the other word.  Equal characters can always be kept,
because the distances of words that differ in one character at the end differ by one at most.

## Main definitions

* `Edits`: a word is turned into another by a number of edits.
* `Aligned`: two words are aligned at some cost.
* `IsDistance`: the least cost of an alignment.
* `IsRow`: a row of the table of distances.
-/

namespace StackAssembler.Text

/-! ## Edits -/

/-- One edit of a word: somewhere in it a character is inserted, deleted or replaced. -/
inductive Edit : List Char → List Char → Prop
  | insertion (front back : List Char) (c : Char) : Edit (front ++ back) (front ++ c :: back)
  | deletion (front back : List Char) (c : Char) : Edit (front ++ c :: back) (front ++ back)
  | substitution (front back : List Char) (c d : Char) :
      Edit (front ++ c :: back) (front ++ d :: back)

/-- A word is turned into another by so many edits, one after the other. -/
inductive Edits : Nat → List Char → List Char → Prop
  | refl (a : List Char) : Edits 0 a a
  | edit {n : Nat} {a b c : List Char} : Edits n a b → Edit b c → Edits (n + 1) a c

variable {a b c front word : List Char} {k l m n : Nat}

theorem Edit.cons (h : Edit a b) (x : Char) : Edit (x :: a) (x :: b) := by
  cases h with
  | insertion front back c => exact .insertion (x :: front) back c
  | deletion front back c => exact .deletion (x :: front) back c
  | substitution front back c d => exact .substitution (x :: front) back c d

theorem Edits.cons (h : Edits n a b) (x : Char) : Edits n (x :: a) (x :: b) := by
  induction h with
  | refl a => exact .refl (x :: a)
  | edit _ he ih => exact .edit ih (he.cons x)

theorem Edit.reverse (h : Edit a b) : Edit a.reverse b.reverse := by
  cases h with
  | insertion front back c => simpa using Edit.insertion back.reverse front.reverse c
  | deletion front back c => simpa using Edit.deletion back.reverse front.reverse c
  | substitution front back c d => simpa using Edit.substitution back.reverse front.reverse c d

/-- Edits can be made from either end. -/
theorem Edits.reverse (h : Edits n a b) : Edits n a.reverse b.reverse := by
  induction h with
  | refl a => exact .refl a.reverse
  | edit _ he ih => exact .edit ih he.reverse

/-! ## Alignments -/

/-- Two words are aligned from their beginnings on.  Keeping a character costs nothing, and
replacing, deleting or inserting one costs one. -/
inductive Aligned : Nat → List Char → List Char → Prop
  | nil : Aligned 0 [] []
  | keep {n : Nat} {a b : List Char} (x : Char) : Aligned n a b → Aligned n (x :: a) (x :: b)
  | replace {n : Nat} {a b : List Char} (x y : Char) : Aligned n a b →
      Aligned (n + 1) (x :: a) (y :: b)
  | delete {n : Nat} {a b : List Char} (x : Char) : Aligned n a b → Aligned (n + 1) (x :: a) b
  | insert {n : Nat} {a b : List Char} (y : Char) : Aligned n a b → Aligned (n + 1) a (y :: b)

namespace Aligned

theorem symm (h : Aligned n a b) : Aligned n b a := by
  induction h with
  | nil => exact .nil
  | keep x _ ih => exact .keep x ih
  | replace x y _ ih => exact .replace y x ih
  | delete x _ ih => exact .insert x ih
  | insert y _ ih => exact .delete y ih

/-- What two words have in common at their beginnings can be kept. -/
theorem append (h : Aligned n a b) (front : List Char) : Aligned n (front ++ a) (front ++ b) := by
  induction front with
  | nil => exact h
  | cons x front ih => exact .keep x ih

theorem refl (a : List Char) : Aligned 0 a a := by
  simpa using nil.append a

/-- Any characters can be inserted, for one each. -/
theorem insertAll (h : Aligned n a b) (front : List Char) :
    Aligned (front.length + n) a (front ++ b) := by
  induction front with
  | nil => simpa using h
  | cons y front ih =>
      rw [List.length_cons, Nat.add_right_comm]
      exact .insert y ih

theorem length_le (h : Aligned n a b) : b.length ≤ a.length + n := by
  induction h with
  | nil => exact Nat.le_refl 0
  | keep | replace | delete | insert =>
      simp only [List.length_cons]
      omega

/-- The cost of turning a character into another one, or into none. -/
def imageCost (x : Char) (image : Option Char) : Nat := if image = some x then 0 else 1

theorem imageCost_le (x : Char) (image : Option Char) : imageCost x image ≤ 1 := by
  rw [imageCost]
  split <;> omega

/-- A character can be turned into any other, or into none. -/
theorem cons (h : Aligned n a b) (x : Char) (image : Option Char) :
    Aligned (imageCost x image + n) (x :: a) (image.toList ++ b) := by
  rw [imageCost]
  split
  · next hi =>
      rw [hi, Nat.zero_add]
      exact .keep x h
  · rw [Nat.add_comm]
    cases image with
    | none => exact .delete x h
    | some y => exact .replace x y h

/-- A character is turned into another or into none, after some have been inserted. -/
theorem exists_of_cons {x : Char} (h : Aligned n (x :: a) b) :
    ∃ m front image rest, Aligned m a rest ∧ b = front ++ (Option.toList image ++ rest) ∧
      front.length + (imageCost x image + m) ≤ n := by
  generalize hword : x :: a = word at h
  induction h with
  | nil => cases hword
  | @keep m a b _ h =>
      cases hword
      exact ⟨m, [], some x, b, h, rfl, by simp [imageCost]⟩
  | @replace m a b _ y h =>
      cases hword
      have hcost := imageCost_le x (some y)
      exact ⟨m, [], some y, b, h, rfl, by rw [List.length_nil]; omega⟩
  | @delete m a b _ h =>
      cases hword
      exact ⟨m, [], none, b, h, rfl, by simp [imageCost, Nat.add_comm]⟩
  | insert y _ ih =>
      obtain ⟨m, front, image, rest, h, rfl, hm⟩ := ih hword
      exact ⟨m, y :: front, image, rest, h, rfl, by rw [List.length_cons]; omega⟩

/-- **Alignments can be put together**, and the whole costs no more than they do. -/
theorem trans (h : Aligned m a b) (h' : Aligned n b c) : ∃ k ≤ m + n, Aligned k a c := by
  induction h generalizing n c with
  | nil => exact ⟨n, by omega, h'⟩
  | delete x _ ih =>
      obtain ⟨k, hk, h⟩ := ih h'
      exact ⟨k + 1, by omega, .delete x h⟩
  | keep x _ ih =>
      obtain ⟨m', front, image, rest, hrest, rfl, hn⟩ := h'.exists_of_cons
      obtain ⟨k, hk, h⟩ := ih hrest
      exact ⟨_, by omega, (h.cons x image).insertAll front⟩
  | replace w x _ ih =>
      obtain ⟨m', front, image, rest, hrest, rfl, hn⟩ := h'.exists_of_cons
      obtain ⟨k, hk, h⟩ := ih hrest
      -- What has been replaced by `x` need not become `x` first.
      have hcost := imageCost_le w image
      exact ⟨_, by omega, (h.cons w image).insertAll front⟩
  | insert x _ ih =>
      obtain ⟨m', front, image, rest, hrest, rfl, hn⟩ := h'.exists_of_cons
      obtain ⟨k, hk, h⟩ := ih hrest
      have hlength : image.toList.length ≤ 1 := by cases image <;> simp
      exact ⟨_, by omega, (h.insertAll image.toList).insertAll front⟩

/-- What follows the first characters of two words can be aligned at no higher cost. -/
theorem exists_of_cons_cons {x y : Char} (h : Aligned n (x :: a) (y :: b)) :
    ∃ k ≤ n, Aligned k a b := by
  cases h with
  | keep _ h => exact ⟨_, Nat.le_refl _, h⟩
  | replace _ _ h => exact ⟨_, Nat.le_succ _, h⟩
  | delete _ h => exact h.trans (.delete y (refl b))
  | insert _ h =>
      obtain ⟨k, hk, h⟩ := Aligned.trans (.insert x (refl a)) h
      exact ⟨k, by omega, h⟩

/-- An alignment is made by edits. -/
theorem edits (h : Aligned n a b) : Edits n a b := by
  induction h with
  | nil => exact .refl []
  | keep x _ ih => exact ih.cons x
  | @replace _ _ b x y _ ih => exact .edit (ih.cons x) (.substitution [] b x y)
  | @delete _ _ b x _ ih => exact .edit (ih.cons x) (.deletion [] b x)
  | @insert _ _ b y _ ih => exact .edit ih (.insertion [] b y)

end Aligned

theorem Edit.aligned (h : Edit a b) : Aligned 1 a b := by
  cases h with
  | insertion front back c => exact Aligned.append (.insert c (.refl back)) front
  | deletion front back c => exact Aligned.append (.delete c (.refl back)) front
  | substitution front back c d => exact Aligned.append (.replace c d (.refl back)) front

/-- **No edits cost less than an alignment.** -/
theorem Edits.exists_aligned (h : Edits n a b) : ∃ k ≤ n, Aligned k a b := by
  induction h with
  | refl a => exact ⟨0, Nat.le_refl 0, .refl a⟩
  | edit _ he ih =>
      obtain ⟨k, hk, h⟩ := ih
      obtain ⟨j, hj, h⟩ := h.trans he.aligned
      exact ⟨j, by omega, h⟩

/-! ## Distances -/

/-- The least cost of an alignment of two words. -/
def IsDistance (a b : List Char) (n : Nat) : Prop := IsLeast {k | Aligned k a b} n

namespace IsDistance

variable {x y : Char}

theorem symm (h : IsDistance a b n) : IsDistance b a n :=
  ⟨h.1.symm, fun _ hk => h.2 (Aligned.symm hk)⟩

/-- The distance from the empty word. -/
theorem of_nil (b : List Char) : IsDistance [] b b.length := by
  constructor
  · simpa using Aligned.nil.insertAll b
  · intro k hk
    simpa using Aligned.length_le hk

/-- **Equal characters can be kept.** -/
theorem keep (h : IsDistance a b n) (x : Char) : IsDistance (x :: a) (x :: b) n := by
  refine ⟨.keep x h.1, fun k hk => ?_⟩
  obtain ⟨j, hj, haligned⟩ := Aligned.exists_of_cons_cons hk
  exact (h.2 haligned).trans hj

/-- Of different characters the first is replaced by the second, or one of them is deleted or
inserted. -/
theorem change (hne : x ≠ y) (hdiagonal : IsDistance a b k) (habove : IsDistance a (y :: b) l)
    (hleft : IsDistance (x :: a) b m) :
    IsDistance (x :: a) (y :: b) (1 + min (min k l) m) := by
  constructor
  · have hreplace : Aligned (k + 1) (x :: a) (y :: b) := .replace x y hdiagonal.1
    have hdelete : Aligned (l + 1) (x :: a) (y :: b) := .delete x habove.1
    have hinsert : Aligned (m + 1) (x :: a) (y :: b) := .insert y hleft.1
    rcases Nat.le_total (min k l) m with hm | hm
    · rcases Nat.le_total k l with hl | hl
      · rwa [Nat.min_eq_left hm, Nat.min_eq_left hl, Nat.add_comm]
      · rwa [Nat.min_eq_left hm, Nat.min_eq_right hl, Nat.add_comm]
    · rwa [Nat.min_eq_right hm, Nat.add_comm]
  · intro n hn
    cases hn with
    | keep => exact absurd rfl hne
    | replace _ _ h =>
        have hle := hdiagonal.2 h
        omega
    | delete _ h =>
        have hle := habove.2 h
        omega
    | insert _ h =>
        have hle := hleft.2 h
        omega

end IsDistance

/-! ## The table -/

/-- The distances of a word from the beginnings of another one, from some beginning on: the word
goes on after it.  The word and the beginning are given last character first, as they grow. -/
inductive IsRow (a : List Char) : List Char → List Char → List Nat → Prop
  | last {front : List Char} {n : Nat} : IsDistance a front n → IsRow a front [] [n]
  | entry {front word : List Char} {x : Char} {n : Nat} {row : List Nat} : IsDistance a front n →
      IsRow a (x :: front) word row → IsRow a front (x :: word) (n :: row)

namespace IsRow

variable {row : List Nat} {left : Nat}

theorem exists_cons (h : IsRow a front word row) :
    ∃ first rest, row = first :: rest ∧ IsDistance a front first := by
  cases h with
  | last h => exact ⟨_, _, rfl, h⟩
  | entry h _ => exact ⟨_, _, rfl, h⟩

/-- **The entries after one that is right are right**, if those of the previous row are. -/
theorem extend (h : IsRow a front word row) {x : Char} (hleft : IsDistance (x :: a) front left) :
    IsRow (x :: a) front word (left :: extendRow x left word row) := by
  induction h generalizing left with
  | last => exact .last hleft
  | @entry front word y diagonal row hdiagonal hrow ih =>
      obtain ⟨above, rest, rfl, habove⟩ := hrow.exists_cons
      refine .entry hleft (ih ?_)
      by_cases hxy : x = y
      · rw [if_pos hxy, ← hxy]
        exact hdiagonal.keep x
      · rw [if_neg hxy]
        exact .change hxy hdiagonal habove hleft

/-- One more character gives the next row. -/
theorem next (h : IsRow a [] word row) (x : Char) :
    IsRow (x :: a) [] word (nextRow word row x) := by
  obtain ⟨first, rest, rfl, hfirst⟩ := h.exists_cons
  have hlength : first = a.length := hfirst.unique (IsDistance.of_nil a).symm
  refine h.extend ?_
  rw [List.headD_cons, hlength]
  exact (IsDistance.of_nil (x :: a)).symm

/-- **All characters of a word give its row.** -/
theorem foldl (h : IsRow a [] word row) (more : List Char) :
    IsRow (more.reverse ++ a) [] word (more.foldl (nextRow word) row) := by
  induction more generalizing a row with
  | nil => exact h
  | cons x more ih => simpa using ih (h.next x)

/-- The row before the first character. -/
theorem first (front word : List Char) :
    IsRow [] front word (List.range' front.length (word.length + 1)) := by
  induction word generalizing front with
  | nil => exact .last (.of_nil front)
  | cons x word ih => exact .entry (.of_nil front) (ih (x :: front))

/-- The last entry is the distance from all of the other word. -/
theorem getLastD (h : IsRow a front word row) :
    IsDistance a (word.reverse ++ front) (row.getLastD 0) := by
  induction h with
  | last h => exact h
  | entry _ hrow ih =>
      obtain ⟨first, rest, rfl, -⟩ := hrow.exists_cons
      simpa using ih

end IsRow

/-! ## The edit distance -/

theorem isDistance_rowDistance (long short : List Char) :
    IsDistance long.reverse short.reverse (rowDistance long short) := by
  have hrow := (IsRow.first [] short).foldl long
  rw [List.length_nil, ← List.range_eq_range', List.append_nil] at hrow
  rw [rowDistance, ← List.append_nil short.reverse]
  exact hrow.getLastD

/-- The row may belong to either word. -/
theorem isDistance_editDistance (a b : List Char) :
    IsDistance a.reverse b.reverse (editDistance a b) := by
  rw [editDistance]
  split
  · exact (isDistance_rowDistance b a).symm
  · exact isDistance_rowDistance a b

theorem edits_editDistance (a b : List Char) : Edits (editDistance a b) a b := by
  simpa using (isDistance_editDistance a b).1.edits.reverse

theorem editDistance_le_of_edits (h : Edits n a b) : editDistance a b ≤ n := by
  obtain ⟨k, hk, haligned⟩ := h.reverse.exists_aligned
  exact ((isDistance_editDistance a b).2 haligned).trans hk

/-- A distance is bounded by a number if no more edits than that are needed. -/
theorem editDistance_le_iff (a b : List Char) (n : Nat) :
    editDistance a b ≤ n ↔ ∃ k ≤ n, Edits k a b := by
  constructor
  · intro h
    exact ⟨editDistance a b, h, edits_editDistance a b⟩
  · rintro ⟨k, hk, h⟩
    exact (editDistance_le_of_edits h).trans hk

/-- **The edit distance of two words is the least number of insertions, deletions and substitutions
of single characters that turn one into the other.** -/
theorem isLeast_editDistance (a b : List Char) : IsLeast {n | Edits n a b} (editDistance a b) :=
  ⟨edits_editDistance a b, fun _ h => editDistance_le_of_edits h⟩

/-- Two characters are replaced and one is inserted. -/
example : editDistance ['k', 'i', 't', 't', 'e', 'n'] ['s', 'i', 't', 't', 'i', 'n', 'g'] = 3 := by
  decide

end StackAssembler.Text

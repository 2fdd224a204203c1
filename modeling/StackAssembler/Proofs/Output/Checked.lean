import StackAssembler.Output.Listing
import Mathlib.Algebra.Group.Int.Defs
import Mathlib.Algebra.Group.Nat.Defs
import Mathlib.Tactic.Common

/-!
# What can be written

An image and a listing can be written of the numbers that are words of the machine, and of no
others; both then hold what is written for each word, one after the other.  Of other numbers both
report the first that is no word.
-/

namespace StackAssembler

namespace Word

/-- Words are the numbers of 32 bits. -/
theorem fits_iff (word : Int) : Fits word ↔ 0 ≤ word ∧ word ≤ 2 ^ 32 - 1 := by
  rw [Fits, max]
  omega

theorem check_of_fits {word : Int} (h : Fits word) : check word = .ok word.toNat := if_pos h

theorem check_of_not_fits {word : Int} (h : ¬ Fits word) :
    check word = .error (.internal (.notAWord word)) := if_neg h

/-- Numbers pass if each of them is a word. -/
theorem mapM_check_of_fits {words : List Int} (h : ∀ word ∈ words, Fits word) :
    words.mapM check = .ok (words.map Int.toNat) := by
  induction words with
  | nil => rfl
  | cons word words ih =>
      rw [List.forall_mem_cons] at h
      rw [List.mapM_cons, check_of_fits h.1, ih h.2]
      rfl

/-- Only words pass. -/
theorem fits_of_mapM_check {words : List Int} {numbers : List Nat}
    (h : words.mapM check = .ok numbers) : ∀ word ∈ words, Fits word := by
  induction words generalizing numbers with
  | nil => simp
  | cons word words ih =>
      rw [List.mapM_cons] at h
      by_cases hw : Fits word
      · rw [check_of_fits hw] at h
        cases hm : words.mapM check with
        | error failure => simp [hm, bind, Except.bind] at h
        | ok rest => exact List.forall_mem_cons.2 ⟨hw, ih hm⟩
      · simp [check_of_not_fits hw, bind, Except.bind] at h

/-- The first of some numbers that is no word. -/
def misfit? (words : List Int) : Option Int := words.find? fun word => ¬ Fits word

theorem misfit?_cons_of_fits {word : Int} (h : Fits word) (words : List Int) :
    misfit? (word :: words) = misfit? words := by
  simp [misfit?, h]

theorem misfit?_cons_of_not_fits {word : Int} (h : ¬ Fits word) (words : List Int) :
    misfit? (word :: words) = some word := by
  simp [misfit?, h]

theorem exists_misfit?_iff (words : List Int) :
    (∃ word, misfit? words = some word) ↔ ∃ word ∈ words, ¬ Fits word := by
  rw [← Option.isSome_iff_exists, misfit?, List.find?_isSome]
  simp

/-- The first number that is no word is reported. -/
theorem mapM_check_eq_error_iff (words : List Int) (failure : Failure) :
    words.mapM check = .error failure ↔
      ∃ word, misfit? words = some word ∧ failure = .internal (.notAWord word) := by
  induction words with
  | nil => simp [misfit?, pure, Except.pure]
  | cons word words ih =>
      rw [List.mapM_cons]
      by_cases hw : Fits word
      · rw [check_of_fits hw, misfit?_cons_of_fits hw, ← ih]
        cases words.mapM check <;> simp [bind, Except.bind, pure, Except.pure]
      · rw [check_of_not_fits hw, misfit?_cons_of_not_fits hw]
        simp [bind, Except.bind, eq_comm]

/-- What is written for each word is written for all, if they are words. -/
theorem mapM_check_bind_eq_ok_iff {α : Type} (write : Nat → List α) (words : List Int)
    (data : List α) :
    (words.mapM check >>= fun numbers => pure (numbers.flatMap write)) = Except.ok data ↔
      (∀ word ∈ words, Fits word) ∧ data = words.flatMap fun word => write word.toNat := by
  constructor
  · intro h
    cases hm : words.mapM check with
    | error failure => simp [hm, bind, Except.bind] at h
    | ok numbers =>
        have hall := fits_of_mapM_check hm
        rw [mapM_check_of_fits hall] at h
        cases h
        exact ⟨hall, List.flatMap_map ..⟩
  · rintro ⟨hall, rfl⟩
    rw [mapM_check_of_fits hall]
    exact congrArg Except.ok (List.flatMap_map ..)

/-- Nothing is written if there is a number that is no word. -/
theorem mapM_check_bind_eq_error_iff {α : Type} (write : Nat → List α) (words : List Int)
    (failure : Failure) :
    (words.mapM check >>= fun numbers => pure (numbers.flatMap write)) =
        (Except.error failure : Except Failure (List α)) ↔
      ∃ word, misfit? words = some word ∧ failure = .internal (.notAWord word) := by
  rw [← mapM_check_eq_error_iff]
  cases words.mapM check <;> simp [bind, Except.bind, pure, Except.pure]

/-- What is written has a length that is fixed for each word. -/
theorem length_flatMap_of_forall {α : Type} {write : Int → List α} {words : List Int} {length : Nat}
    (h : ∀ word ∈ words, (write word).length = length) :
    (words.flatMap write).length = length * words.length := by
  induction words with
  | nil => rfl
  | cons word words ih =>
      rw [List.forall_mem_cons] at h
      rw [List.flatMap_cons, List.length_append, h.1, ih h.2, List.length_cons, Nat.mul_succ,
        Nat.add_comm]

end Word

/-- **An image is written of words, each in the bytes of its number, and of nothing else.** -/
theorem Image.ofWords_eq_ok_iff (order : ByteOrder) (words : List Int) (data : List UInt8) :
    ofWords order words = .ok data ↔ (∀ word ∈ words, Word.Fits word) ∧
      data = words.flatMap fun word => order.bytes Word.width word.toNat :=
  Word.mapM_check_bind_eq_ok_iff (order.bytes Word.width) words data

theorem Image.ofWords_eq_error_iff (order : ByteOrder) (words : List Int) (failure : Failure) :
    ofWords order words = .error failure ↔
      ∃ word, Word.misfit? words = some word ∧ failure = .internal (.notAWord word) :=
  Word.mapM_check_bind_eq_error_iff (order.bytes Word.width) words failure

/-- **A listing is written of words, each on a line of its own, and of nothing else.** -/
theorem Listing.ofWords_eq_ok_iff (style : Style) (words : List Int) (text : List Char) :
    ofWords style words = .ok text ↔ (∀ word ∈ words, Word.Fits word) ∧
      text = words.flatMap fun word => line style word.toNat :=
  Word.mapM_check_bind_eq_ok_iff (line style) words text

theorem Listing.ofWords_eq_error_iff (style : Style) (words : List Int) (failure : Failure) :
    ofWords style words = .error failure ↔
      ∃ word, Word.misfit? words = some word ∧ failure = .internal (.notAWord word) :=
  Word.mapM_check_bind_eq_error_iff (line style) words failure

end StackAssembler

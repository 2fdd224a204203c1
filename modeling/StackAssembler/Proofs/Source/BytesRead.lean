import StackAssembler.Proofs.Source.Calls
import StackAssembler.Proofs.Source.Positions

/-!
# How far a text is read

A decoder hands out a character with the last of its bytes, and the cutter a word with the break
that ends it.  So a consumer that has taken some items of a text has caused no more to be read than
it needs: for characters their own bytes, and for words those of the words and of the breaks after
them.  A cursor holds one item more.  The readings are followed for any form that reads a code, and
then for UTF-8.
-/

namespace StackAssembler

/-! ## Taking items -/

namespace Reading

variable {α : Type}

theorem items_takeAfter (j count : Nat) (reading : Reading α) :
    (take.takeAfter j count reading).items = reading.items.take count := by
  induction reading generalizing j count with
  | done k => cases count <;> rfl
  | stopped failure k => cases count <;> rfl
  | next item k rest ih =>
      cases count with
      | zero => rfl
      | succ count => exact congrArg (item :: ·) (ih k count)

/-- Who takes more items than there are has caused everything to be read. -/
theorem bytesRead_takeAfter_of_length_lt {reading : Reading α} {count : Nat}
    (h : reading.items.length < count) (j : Nat) :
    (take.takeAfter j count reading).bytesRead = reading.bytesRead := by
  obtain ⟨count, rfl⟩ := Nat.exists_eq_succ_of_ne_zero (Nat.ne_zero_of_lt h)
  induction reading generalizing j count with
  | done k => rfl
  | stopped failure k => rfl
  | next item k rest ih =>
      cases count with
      | zero => exact absurd h (Nat.not_lt.2 (Nat.succ_le_succ (Nat.zero_le _)))
      | succ count => exact ih k count (Nat.lt_of_succ_lt_succ h)

/-- Who takes an item and those before it has caused as much to be read as the item needs. -/
theorem bytesRead_takeAfter_prepend (front : List (α × Nat)) (item : α) (k : Nat)
    (behind : Reading α) (j : Nat) :
    (take.takeAfter j (front.length + 1) (prepend front (.next item k behind))).bytesRead = k := by
  induction front generalizing j with
  | nil => rfl
  | cons first front ih => exact ih first.2

end Reading

/-! ## Characters -/

namespace Source

open Encoding

variable {form : Form} {code : Char → List UInt8}

/-- **Characters take their own bytes.** -/
theorem bytesRead_takeAfter_readFrom (H : form.Reads code) (encoding : String) (offset : Nat)
    (text : List Char) (count : Nat) :
    (Reading.take.takeAfter offset count
      (readFrom encoding form.decoder [] offset (text.flatMap code))).bytesRead =
        offset + ((text.take count).flatMap code).length := by
  induction text generalizing offset count with
  | nil =>
      rw [List.flatMap_nil, readFrom_nil_ok encoding H.finish_nil, List.take_nil]
      cases count <;> rfl
  | cons c text ih =>
      cases count with
      | zero => rfl
      | succ count =>
          rw [List.flatMap_cons, readFrom_code H, Reading.take.takeAfter, Reading.bytesRead, ih,
            List.take_succ_cons, List.flatMap_cons, List.length_append, Nat.add_assoc]

end Source

/-! ## Words -/

namespace Cutting

open Encoding Source

variable {form : Form} {code : Char → List UInt8}

/-- A text without a break is read without a word being handed out. -/
theorem cut_readFrom_unbroken (H : form.Reads code) (file encoding : String) (cutting : Cutting)
    (offset : Nat) {word : List Char} (h : ∀ c ∈ word, isBreak c = false) (more : List Char) :
    cutting.cut file (readFrom encoding form.decoder [] offset ((word ++ more).flatMap code)) =
      (cutting.after word).cut file (readFrom encoding form.decoder []
        (offset + (word.flatMap code).length) (more.flatMap code)) := by
  induction word generalizing cutting offset with
  | nil => rfl
  | cons c word ih =>
      rw [List.forall_mem_cons] at h
      rw [List.cons_append, List.flatMap_cons, readFrom_code H, cut_unbroken file cutting h.1,
        ih (cutting.next c) _ h.2, List.flatMap_cons, List.length_append, Nat.add_assoc]
      rfl

/-- **Words take their own bytes and those of the breaks after them.** -/
theorem bytesRead_takeAfter_cut (H : form.Reads code) (file encoding : String) (cutting : Cutting)
    (offset : Nat) {words : List (List Char)} {breaks : List Char}
    (hlength : words.length = breaks.length + 1)
    (hwords : ∀ word ∈ words, ∀ c ∈ word, isBreak c = false)
    (hbreaks : ∀ c ∈ breaks, isBreak c = true) (count : Nat) :
    (Reading.take.takeAfter offset count (cutting.cut file
      (readFrom encoding form.decoder [] offset ((weave words breaks).flatMap code)))).bytesRead =
        offset + ((weave (words.take count) breaks).flatMap code).length := by
  induction breaks generalizing cutting offset words count with
  | nil =>
      obtain ⟨word, rfl⟩ := List.length_eq_one_iff.1 hlength
      have hread := cut_readFrom_unbroken H file encoding cutting offset
        (hwords word List.mem_cons_self) []
      rw [List.append_nil, List.flatMap_nil, readFrom_nil_ok encoding H.finish_nil] at hread
      rw [weave_singleton, hread]
      cases count with
      | zero => rfl
      | succ count =>
          rw [List.take_succ_cons, List.take_nil, weave_singleton]
          cases count <;> rfl
  | cons c breaks ih =>
      obtain ⟨word, rest, rfl⟩ := List.exists_cons_of_length_eq_add_one hlength
      rw [List.forall_mem_cons] at hwords hbreaks
      -- The characters of the first word are read for it, and then the break hands it out.
      rw [weave_cons, cut_readFrom_unbroken H file encoding cutting offset hwords.1,
        List.flatMap_cons, readFrom_code H, cut_break file _ hbreaks.1]
      cases count with
      | zero => rfl
      | succ count =>
          rw [Reading.take.takeAfter, Reading.bytesRead,
            ih _ _ (Nat.succ.inj hlength) hwords.2 hbreaks.2, List.take_succ_cons, weave_cons,
            List.flatMap_append, List.flatMap_cons, List.length_append, List.length_append]
          omega

end Cutting

/-- A word that is not the last one is followed by a break, and only then by the other words. -/
theorem exists_break_weave {words : List (List Char)} {breaks : List Char}
    (hlength : words.length = breaks.length + 1) {k : Nat} {word : List Char}
    (h : words[k]? = some word) (hlast : k + 1 < words.length) : ∃ c ∈ breaks, ∃ rest,
      weave (words.take (k + 1)) breaks = weave (words.take k) breaks ++ word ++ [c] ∧
      weave words breaks = weave (words.take (k + 1)) breaks ++ rest := by
  induction breaks generalizing words k with
  | nil =>
      rw [hlength] at hlast
      exact absurd (Nat.lt_of_succ_lt_succ hlast) (Nat.not_lt_zero k)
  | cons c breaks ih =>
      obtain ⟨first, rest, rfl⟩ := List.exists_cons_of_length_eq_add_one hlength
      rw [List.take_succ_cons, weave_cons, weave_cons]
      cases k with
      | zero =>
          obtain rfl : first = word := by simpa using h
          exact ⟨c, List.mem_cons_self, weave rest breaks, rfl, (List.append_cons ..)⟩
      | succ k =>
          obtain ⟨b, hb, more, hnext, hall⟩ := ih (Nat.succ.inj hlength) h
            (Nat.lt_of_succ_lt_succ hlast)
          refine ⟨b, List.mem_cons_of_mem c hb, more, ?_, ?_⟩
          · rw [hnext, List.take_succ_cons, weave_cons]
            simp only [List.append_assoc, List.cons_append]
          · rw [List.append_assoc, List.cons_append, ← hall]

/-- Before the next word stand the words up to this one, and the break after it. -/
theorem beforeWord_succ {text word : List Char} {k : Nat} (h : (wordsOf text)[k]? = some word)
    (hlast : k + 1 < (wordsOf text).length) : ∃ c rest, isBreak c = true ∧
      beforeWord text (k + 1) = beforeWord text k ++ word ++ [c] ∧
      text = beforeWord text (k + 1) ++ rest := by
  obtain ⟨c, hc, rest, hnext, hall⟩ := exists_break_weave (length_wordsOf text) h hlast
  rw [weave_wordsOf] at hall
  exact ⟨c, rest, (List.mem_filter.1 hc).2, hnext, hall⟩

/-! ## UTF-8 -/

namespace Source

open Encoding

variable {name : String}

theorem bytesRead_take_characters (hname : ofName? name = some .utf8) (text : List Char)
    (count : Nat) :
    ((characters name (Utf8.encode text)).take count).bytesRead =
      (Utf8.encode (text.take count)).length := by
  rw [characters_of_utf8 hname]
  exact (bytesRead_takeAfter_readFrom Utf8.form_reads name 0 text count).trans (Nat.zero_add _)

theorem bytesRead_take_tokens (hname : ofName? name = some .utf8) (file : String)
    (text : List Char) (count : Nat) :
    ((tokens file name (Utf8.encode text)).take count).bytesRead =
      (Utf8.encode (beforeWord text count)).length := by
  have hread := Cutting.first.bytesRead_takeAfter_cut Utf8.form_reads file name 0
    (length_wordsOf text) (fun _ hm => unbroken_of_mem_wordsOf hm)
    (fun c hc => (List.mem_filter.1 hc).2) count
  rw [weave_wordsOf, Nat.zero_add, ← Utf8.encode, ← characters_of_utf8 hname] at hread
  exact hread

end Source

/-! ## Cursors -/

namespace Cursor

variable {α : Type} {reading : Reading α} {items : List α} {failures : List Failure}
variable {cursor : Cursor α}

/-- A reading that does not fail can be opened. -/
theorem exists_ofReading (h : reading.failure? = none) :
    ∃ cursor, ofReading reading = .ok cursor := by
  cases reading with
  | done k => exact ⟨_, rfl⟩
  | stopped failure k => cases h
  | next item k rest => exact ⟨_, rfl⟩

/-- **A cursor has caused one item more to be read than it has handed out.** -/
theorem Stands.bytesRead_eq (h : Stands reading items failures cursor)
    (hnone : reading.failure? = none) :
    cursor.bytesRead = (reading.take (items.length + 1)).bytesRead := by
  cases h with
  | @holding front item k behind hreading =>
      rw [hreading, List.length_map]
      exact (Reading.bytesRead_takeAfter_prepend front item k behind 0).symm
  | failed hreading =>
      rw [hreading, Reading.failure?_prepend] at hnone
      cases hnone
  | exhausted hitems hfailures hk =>
      rw [hitems]
      exact hk.trans
        (Reading.bytesRead_takeAfter_of_length_lt (Nat.lt_succ_self _) 0).symm

end Cursor

end StackAssembler

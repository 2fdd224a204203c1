import StackAssembler.Proofs.Source.Unreadable
import StackAssembler.Source.Cursor

/-!
# Cursors over words

A consumer of a cursor opens it and asks for items until there are none, and goes on asking after a
failure.  All in all it gets every item of the reading, and the failure of the reading if there is
one: the failure comes before the last item, but that is not lost.

This does not carry over to a cursor over the words of a cursor over characters, for the words are
cut from what the inner cursor hands out before it fails, and the last character is not among that.
So the failure is placed at this character and not after it, and if the character ends a word then
the word is missing.

## Main definitions

* `Cursor.Drives`: what the calls of `next` give.
* `Cursor.Gives`: what a consumer gets, the opening of the cursor included.
-/

namespace StackAssembler

/-! ## Reading one item ahead -/

namespace Reading

variable {α : Type}

theorem items_holding (item : α) (reading : Reading α) :
    (ahead.holding item reading).items =
      if reading.failure? = none then item :: reading.items
      else (item :: reading.items).dropLast := by
  induction reading generalizing item with
  | done k => rfl
  | stopped failure k => rfl
  | next following k rest ih =>
      rw [ahead.holding, items, ih, failure?, items]
      split <;> rfl

@[simp] theorem failure?_holding (item : α) (reading : Reading α) :
    (ahead.holding item reading).failure? = reading.failure? := by
  induction reading generalizing item with
  | done k => rfl
  | stopped failure k => rfl
  | next following k rest ih => exact ih following

/-- The item before a failure is lost. -/
theorem items_ahead (reading : Reading α) :
    reading.ahead.items =
      if reading.failure? = none then reading.items else reading.items.dropLast := by
  cases reading with
  | done k => rfl
  | stopped failure k => rfl
  | next item k rest => exact items_holding item rest

@[simp] theorem failure?_ahead (reading : Reading α) :
    reading.ahead.failure? = reading.failure? := by
  cases reading with
  | done k => rfl
  | stopped failure k => rfl
  | next item k rest => exact failure?_holding item rest

end Reading

/-! ## Driving a cursor -/

namespace Cursor

variable {α : Type} {items others : List α} {failures failures' : List Failure}

/-- What a cursor gives that is asked for items until it is exhausted, also after a failure: the
items and the failures, each in their order. -/
inductive Drives : Cursor α → List α → List Failure → Prop
  /-- There is nothing more to hand out. -/
  | exhausted {cursor later : Cursor α} : cursor.next = (.ok none, later) → Drives cursor [] []
  /-- An item is handed out. -/
  | item {cursor later : Cursor α} {item : α} {items : List α} {failures : List Failure} :
      cursor.next = (.ok (some item), later) → Drives later items failures →
      Drives cursor (item :: items) failures
  /-- Reading ahead fails, and the cursor is asked again. -/
  | failure {cursor later : Cursor α} {failure : Failure} {items : List α}
      {failures : List Failure} :
      cursor.next = (.error failure, later) → Drives later items failures →
      Drives cursor items (failure :: failures)

/-- A cursor gives one thing only. -/
theorem Drives.unique {cursor : Cursor α} (h : cursor.Drives items failures)
    (h' : cursor.Drives others failures') : items = others ∧ failures = failures' := by
  induction h generalizing others failures' with
  | exhausted hn =>
      cases h' with
      | exhausted => exact ⟨rfl, rfl⟩
      | item hn' | failure hn' => rw [hn] at hn'; cases hn'
  | item hn _ ih =>
      cases h' with
      | exhausted hn' | failure hn' => rw [hn] at hn'; cases hn'
      | item hn' hrest =>
          rw [hn] at hn'
          cases hn'
          obtain ⟨rfl, rfl⟩ := ih hrest
          exact ⟨rfl, rfl⟩
  | failure hn _ ih =>
      cases h' with
      | exhausted hn' | item hn' => rw [hn] at hn'; cases hn'
      | failure hn' hrest =>
          rw [hn] at hn'
          cases hn'
          obtain ⟨rfl, rfl⟩ := ih hrest
          exact ⟨rfl, rfl⟩

theorem drives_none (behind : Reading α) (k : Nat) : (⟨none, behind, k⟩ : Cursor α).Drives [] [] :=
  .exhausted rfl

/-- A cursor gives the item it holds and all that follow it; the failure that ends them, if one
does, is given once. -/
theorem drives_some (item : α) (reading : Reading α) (k : Nat) :
    (⟨some item, reading, k⟩ : Cursor α).Drives (item :: reading.items)
      reading.failure?.toList := by
  induction reading generalizing item k with
  | done j => exact .item rfl (drives_none _ _)
  | stopped failure j => exact .failure rfl (.item rfl (drives_none _ _))
  | next following j rest ih => exact .item rfl (ih following j)

/-- What a consumer gets that opens a cursor and then asks for items until it is exhausted.  If it
cannot be opened, the failure is all there is. -/
def Gives (opened : Except (Failure × Nat) (Cursor α)) (items : List α)
    (failures : List Failure) : Prop :=
  match opened with
  | .error (failure, _) => items = [] ∧ failures = [failure]
  | .ok cursor => cursor.Drives items failures

theorem gives_error_iff (failure : Failure) (k : Nat) :
    Gives (.error (failure, k) : Except (Failure × Nat) (Cursor α)) items failures ↔
      items = [] ∧ failures = [failure] :=
  Iff.rfl

/-- **A cursor over a reading gives the reading**: its items, and the failure that ends it. -/
theorem gives_ofReading_iff (reading : Reading α) :
    Gives (ofReading reading) items failures ↔
      items = reading.items ∧ failures = reading.failure?.toList := by
  cases reading with
  | done k =>
      refine ⟨fun h => Drives.unique h (drives_none _ _), ?_⟩
      rintro ⟨rfl, rfl⟩
      exact drives_none _ _
  | stopped failure k => exact gives_error_iff failure k
  | next item k rest =>
      refine ⟨fun h => Drives.unique h (drives_some _ _ _), ?_⟩
      rintro ⟨rfl, rfl⟩
      exact drives_some _ _ _

end Cursor

/-! ## Words of characters that are read ahead -/

namespace Cursor

variable {file encoding : String} {bytes : List UInt8} {items : List Token}
variable {failures : List Failure}

/-- Without a failure nothing is lost. -/
theorem gives_ofTokensAhead_of_none (h : (Source.characters encoding bytes).failure? = none) :
    Gives (ofTokensAhead file encoding bytes) items failures ↔
      items = (Source.tokens file encoding bytes).items ∧ failures = [] := by
  have hahead : (Source.characters encoding bytes).ahead.failure? = none := by
    rw [Reading.failure?_ahead, h]
  have hopen : ofTokensAhead file encoding bytes =
      ofReading (Token.ofCharacters file (Source.characters encoding bytes).ahead) := by
    rw [ofTokensAhead]
    split
    · next heq =>
        rw [heq] at h
        cases h
    · rfl
  rw [hopen, gives_ofReading_iff, Token.failure?_ofCharacters, hahead,
    Token.items_ofCharacters_of_none file hahead, Reading.items_ahead, if_pos h, Source.tokens,
    Token.items_ofCharacters_of_none file h]
  rfl

/-- Before a failure the words are cut from all characters but the last. -/
theorem gives_ofTokensAhead_of_some {failure : Failure}
    (h : (Source.characters encoding bytes).failure? = some failure) :
    Gives (ofTokensAhead file encoding bytes) items failures ↔
      items = Cutting.first.completed file (Source.characters encoding bytes).items.dropLast ∧
        failures = [if (Source.characters encoding bytes).items = [] then failure
          else failure.locate ((Cutting.first.after
            (Source.characters encoding bytes).items.dropLast).reached file)] := by
  generalize hreading : Source.characters encoding bytes = reading at h
  cases reading with
  | done k => cases h
  | stopped other k =>
      cases h
      rw [ofTokensAhead, hreading]
      exact gives_error_iff failure k
  | next c k rest =>
      have hne : (Reading.next c k rest).items ≠ [] := List.cons_ne_nil c rest.items
      have hahead : (Reading.next c k rest).ahead.failure? = some failure := by
        rw [Reading.failure?_ahead, h]
      rw [ofTokensAhead, hreading, gives_ofReading_iff, Token.failure?_ofCharacters, hahead,
        Token.items_ofCharacters_of_some file hahead, Reading.items_ahead, if_neg (by simp [h]),
        if_neg hne]
      rfl

/-- The words that are read before a failure are those that all characters but the last complete,
and then the one that the last completes, if it does. -/
theorem items_tokens_of_some {failure : Failure}
    {read : List Char} (hread : (Source.characters encoding bytes).items = read)
    (h : (Source.characters encoding bytes).failure? = some failure) :
    (Source.tokens file encoding bytes).items = Cutting.first.completed file read.dropLast ++
      (Cutting.first.after read.dropLast).completed file read.getLast?.toList := by
  have hsplit : read.dropLast ++ read.getLast?.toList = read := by
    cases hlast : read.getLast? with
    | none => simp [List.getLast?_eq_none_iff.1 hlast]
    | some c =>
        obtain ⟨init, hinit⟩ := List.getLast?_eq_some_iff.1 hlast
        rw [hinit, List.dropLast_concat]
        rfl
  rw [Source.tokens, Token.items_ofCharacters_of_some file h, hread, ← Cutting.completed_append,
    hsplit]

/-- **A cursor over the words of a cursor over characters gives the words of the input, if the
input can be read to its end.**  If it cannot then what is wrong is reported all the same, but at
the last character before it, or without a place if there is no such character; and the word is
missing that this character completes. -/
theorem ofTokensAhead_gives (file encoding : String) (bytes : List UInt8) :
    let characters := Source.characters encoding bytes
    let words := Source.tokens file encoding bytes
    let before := Cutting.first.after characters.items.dropLast
    let missing := before.completed file characters.items.getLast?.toList
    (characters.failure? = none → words.failure? = none ∧
      ∀ items failures, Gives (ofTokensAhead file encoding bytes) items failures ↔
        items = words.items ∧ failures = []) ∧
    (∀ diagnostic, characters.failure? = some (.program diagnostic) →
      words.failure? = some (.program
        ⟨diagnostic.cause, some ((Cutting.first.after characters.items).reached file)⟩) ∧
      ∀ items failures, Gives (ofTokensAhead file encoding bytes) items failures ↔
        words.items = items ++ missing ∧ failures = [.program ⟨diagnostic.cause,
          if characters.items = [] then none else some (before.reached file)⟩]) ∧
    (∀ failure, characters.failure? = some failure →
      (∀ diagnostic, failure ≠ .program diagnostic) → words.failure? = some failure ∧
      ∀ items failures, Gives (ofTokensAhead file encoding bytes) items failures ↔
        words.items = items ++ missing ∧ failures = [failure]) := by
  intro characters words before missing
  have hfailure : words.failure? = characters.failure?.map
      (·.locate ((Cutting.first.after characters.items).reached file)) :=
    Token.failure?_ofCharacters file characters
  have hgives : ∀ failure, characters.failure? = some failure → ∀ items failures,
      Gives (ofTokensAhead file encoding bytes) items failures ↔
        words.items = items ++ missing ∧ failures = [if characters.items = [] then failure
          else failure.locate (before.reached file)] := by
    intro failure h items failures
    rw [gives_ofTokensAhead_of_some h, items_tokens_of_some rfl h,
      List.append_cancel_right_eq, eq_comm]
  refine ⟨fun h => ⟨by rw [hfailure, h]; rfl, fun _ _ => gives_ofTokensAhead_of_none h⟩,
    fun diagnostic h => ?_, fun failure h hother => ?_⟩
  · obtain ⟨hreading, hword, hplace⟩ := Source.unplaced_of_characters h
    obtain ⟨cause, place⟩ := diagnostic
    obtain rfl : place = none := hplace
    have hlocate : ∀ location, (Failure.program ⟨cause, none⟩).locate location =
        .program ⟨cause, some location⟩ := by
      intro location
      simp only [Failure.locate, Diagnostic.locate, hreading, Cause.withoutWord, hword]
      rfl
    refine ⟨by rw [hfailure, h, Option.map_some, hlocate], fun items failures => ?_⟩
    rw [hgives _ h, hlocate]
    split <;> rfl
  · have hlocate : ∀ location, failure.locate location = failure := by
      intro location
      cases failure with
      | program diagnostic => exact absurd rfl (hother diagnostic)
      | _ => rfl
    refine ⟨by rw [hfailure, h, Option.map_some, hlocate], fun items failures => ?_⟩
    rw [hgives _ h, hlocate, ite_self]

/-- After a word and a space, a byte that is in no text is reported at the space, and the word is
missing. -/
theorem ofTokensAhead_misplaces :
    let bytes := [0x61, 0x20, 0xff]
    let cause := Cause.malformed "utf-8" 2 .invalidStart
    (Source.tokens "<input>" "utf-8" bytes).items = [⟨['a'], ⟨"<input>", 1, 1⟩⟩] ∧
      (Source.tokens "<input>" "utf-8" bytes).failure? =
        some (.program ⟨cause, some ⟨"<input>", 1, 3⟩⟩) ∧
      ∀ items failures, Gives (ofTokensAhead "<input>" "utf-8" bytes) items failures →
        items = [] ∧ failures = [.program ⟨cause, some ⟨"<input>", 1, 2⟩⟩] := by
  refine ⟨by decide +kernel, by decide +kernel, fun items failures h => ?_⟩
  have hread : (Source.characters "utf-8" [0x61, 0x20, 0xff]).items = ['a', ' '] := by
    decide +kernel
  have hfailure : (Source.characters "utf-8" [0x61, 0x20, 0xff]).failure? =
      some (.program ⟨.malformed "utf-8" 2 .invalidStart, none⟩) := by decide +kernel
  have hgives := (gives_ofTokensAhead_of_some hfailure).1 h
  rw [hread] at hgives
  exact hgives

end Cursor

end StackAssembler

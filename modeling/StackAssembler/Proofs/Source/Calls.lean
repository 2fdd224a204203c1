import StackAssembler.Source.Cursor
import StackAssembler.Source.Token
import Mathlib.Tactic.Common

/-!
# Calls of a cursor

A cursor may be asked for the next item, and whether there is one, in any order and as often as its
owner likes, also after it has failed.  The items come in order and none is lost or repeated; if
reading ahead fails, that is reported once, before the last item.

The invariant is `Cursor.Stands`: it says where a cursor is in its reading, by the items that it has
handed out and the failures that it has reported.

## Main definitions

* `Reading.prepend`: a reading before which other items are handed out.
* `Cursor.performAll`: the answers to calls in any order.
* `Cursor.Stands`: where a cursor is in its reading.
* `Cursor.Serves`: what a cursor owes after some answers.
-/

namespace StackAssembler

variable {α : Type}

/-! ## Items before a reading -/

namespace Reading

/-- The reading that hands out some items before another one goes on, each with the number of bytes
read by then. -/
def prepend (front : List (α × Nat)) (reading : Reading α) : Reading α :=
  front.foldr (fun item rest => .next item.1 item.2 rest) reading

theorem prepend_concat (front : List (α × Nat)) (item : α) (k : Nat) (reading : Reading α) :
    prepend (front ++ [(item, k)]) reading = prepend front (.next item k reading) := by
  rw [prepend, List.foldr_append]
  rfl

theorem items_prepend (front : List (α × Nat)) (item : α) (k : Nat) (behind : Reading α) :
    (prepend front (.next item k behind)).items = front.map Prod.fst ++ item :: behind.items := by
  induction front with
  | nil => rfl
  | cons first front ih => exact congrArg (first.1 :: ·) ih

theorem failure?_prepend (front : List (α × Nat)) (item : α) (k : Nat) (behind : Reading α) :
    (prepend front (.next item k behind)).failure? = behind.failure? := by
  induction front with
  | nil => rfl
  | cons first front ih => exact ih

theorem bytesRead_prepend (front : List (α × Nat)) (item : α) (k : Nat) (behind : Reading α) :
    (prepend front (.next item k behind)).bytesRead = behind.bytesRead := by
  induction front with
  | nil => rfl
  | cons first front ih => exact ih

end Reading

namespace Cursor

/-! ## Calls and answers -/

/-- What a cursor can be asked. -/
inductive Call
  /-- Whether there is a next item. -/
  | hasNext
  /-- For the next item. -/
  | next
  deriving DecidableEq, Repr

/-- What a cursor answers. -/
inductive Answer (α : Type)
  | flag (hasNext : Bool)
  | item (item : α)
  /-- There is no next item. -/
  | exhausted
  | failure (failure : Failure)
  deriving DecidableEq, Repr

namespace Answer

/-- The item that is handed out. -/
def item? : Answer α → Option α
  | .item given => some given
  | _ => none

/-- The failure that is reported. -/
def failure? : Answer α → Option Failure
  | .failure given => some given
  | _ => none

end Answer

/-- The answer to a call, and the cursor after it. -/
def perform (cursor : Cursor α) : Call → Answer α × Cursor α
  | .hasNext => (.flag cursor.hasNext, cursor)
  | .next =>
    match cursor.next with
    | (.ok (some item), later) => (.item item, later)
    | (.ok none, later) => (.exhausted, later)
    | (.error failure, later) => (.failure failure, later)

/-- The answers to calls one after the other, and the cursor after them. -/
def performAll (cursor : Cursor α) : List Call → List (Answer α) × Cursor α
  | [] => ([], cursor)
  | call :: calls =>
    let (answer, later) := cursor.perform call
    let (answers, last) := later.performAll calls
    (answer :: answers, last)

/-- The items handed out in answers. -/
def returned (answers : List (Answer α)) : List α := answers.filterMap Answer.item?

/-- The failures reported in answers. -/
def reported (answers : List (Answer α)) : List Failure := answers.filterMap Answer.failure?

theorem returned_cons (answer : Answer α) (answers : List (Answer α)) :
    returned (answer :: answers) = answer.item?.toList ++ returned answers := by
  rw [returned, List.filterMap_cons]
  cases answer.item? <;> rfl

theorem reported_cons (answer : Answer α) (answers : List (Answer α)) :
    reported (answer :: answers) = answer.failure?.toList ++ reported answers := by
  rw [reported, List.filterMap_cons]
  cases answer.failure? <;> rfl

/-- What a cursor over a reading owes when it has handed out some items and reported some
failures. -/
structure Serves (reading : Reading α) (given : List α) (failures : List Failure)
    (cursor : Cursor α) : Prop where
  /-- Items are handed out in order, each once. -/
  given_prefix : given <+: reading.items
  /-- There is a next item as long as not all are handed out, and asking changes nothing. -/
  hasNext : cursor.perform .hasNext =
    (.flag (decide (given.length < reading.items.length)), cursor)
  /-- The next item is handed out, but that the last one waits for a failure to be reported. -/
  next_item : ∀ item, reading.items[given.length]? = some item →
    (given.length + 1 = reading.items.length → failures = reading.failure?.toList) →
    (cursor.perform .next).1 = .item item
  /-- A failure is reported when all items but the last are handed out. -/
  next_failure : ∀ failure, reading.failure? = some failure →
    given.length + 1 = reading.items.length → failures = [] →
    (cursor.perform .next).1 = .failure failure
  /-- After the last item there is none. -/
  next_exhausted : given.length = reading.items.length → (cursor.perform .next).1 = .exhausted
  /-- A failure is not reported twice. -/
  failures_prefix : failures <+: reading.failure?.toList
  /-- It is not reported before that time. -/
  failures_nil : given.length + 1 < reading.items.length → failures = []
  /-- It is not passed over. -/
  failures_all : given.length = reading.items.length → failures = reading.failure?.toList

/-! ## The invariant of the calls -/

/-- Where a cursor is in its reading, when it has handed out some items and reported some
failures. -/
inductive Stands (reading : Reading α) : List α → List Failure → Cursor α → Prop
  /-- An item has been read, and nothing after it. -/
  | holding {front : List (α × Nat)} {item : α} {k : Nat} {behind : Reading α} :
      reading = .prepend front (.next item k behind) →
      Stands reading (front.map Prod.fst) [] ⟨some item, behind, k⟩
  /-- Reading on has failed, and the last item is still there. -/
  | failed {front : List (α × Nat)} {item : α} {j k : Nat} {failure : Failure} :
      reading = .prepend front (.next item j (.stopped failure k)) →
      Stands reading (front.map Prod.fst) [failure] ⟨some item, .done k, k⟩
  /-- All items have been handed out. -/
  | exhausted {items : List α} {failures : List Failure} {behind : Reading α} {k : Nat} :
      items = reading.items → failures = reading.failure?.toList → k = reading.bytesRead →
      Stands reading items failures ⟨none, behind, k⟩

variable {reading : Reading α} {items : List α} {failures : List Failure} {cursor : Cursor α}

/-- A cursor that has been opened stands at the beginning. -/
theorem stands_of_ofReading (h : ofReading reading = .ok cursor) : Stands reading [] [] cursor := by
  cases reading with
  | done k =>
      cases h
      exact .exhausted rfl rfl rfl
  | stopped failure k => cases h
  | next item k rest =>
      cases h
      have hreading : Reading.next item k rest = .prepend [] (.next item k rest) := rfl
      exact .holding hreading

namespace Stands

variable {front : List (α × Nat)} {item : α} {j k : Nat} {behind : Reading α} {failure : Failure}

/-- Handing out the last item leaves the cursor at the end. -/
theorem exhausted_of_last (front : List (α × Nat)) (item : α) (j : Nat) (behind last : Reading α)
    (hlast : behind.items = []) :
    Stands (.prepend front (.next item j behind)) (front.map Prod.fst ++ [item])
      behind.failure?.toList ⟨none, last, behind.bytesRead⟩ := by
  refine .exhausted ?_ ?_ ?_
  · rw [Reading.items_prepend, hlast]
  · rw [Reading.failure?_prepend]
  · rw [Reading.bytesRead_prepend]

/-- **An answer leaves the cursor where it is to be after it.** -/
theorem perform (h : Stands reading items failures cursor) (call : Call) :
    Stands reading (items ++ (cursor.perform call).1.item?.toList)
      (failures ++ (cursor.perform call).1.failure?.toList) (cursor.perform call).2 := by
  cases call with
  | hasNext => simpa [Cursor.perform, Answer.item?, Answer.failure?] using h
  | next =>
      cases h with
      | @holding front item k behind hreading =>
          subst hreading
          -- The item held is handed out unless reading on fails, and then it stays.
          cases behind with
          | done j =>
              exact exhausted_of_last front item k (.done j) (.done j) rfl
          | stopped failure j =>
              have hlater : Stands (.prepend front (.next item k (.stopped failure j)))
                (front.map Prod.fst) [failure] ⟨some item, .done j, j⟩ := .failed rfl
              rwa [← List.append_nil (front.map Prod.fst)] at hlater
          | next following j rest =>
              have hlater := Stands.holding
                (Reading.prepend_concat front item k (.next following j rest)).symm
              rwa [List.map_append] at hlater
      | @failed front item j k failure hreading =>
          subst hreading
          exact exhausted_of_last front item j (.stopped failure k) (.done k) rfl
      | exhausted hitems hfailures hk =>
          refine .exhausted ?_ ?_ hk
          · rw [hitems]
            exact List.append_nil _
          · rw [hfailures]
            exact List.append_nil _

/-- **Answers to calls in any order leave the cursor where it is to be after them.** -/
theorem performAll (h : Stands reading items failures cursor) (calls : List Call) :
    Stands reading (items ++ returned (cursor.performAll calls).1)
      (failures ++ reported (cursor.performAll calls).1) (cursor.performAll calls).2 := by
  induction calls generalizing items failures cursor with
  | nil => simpa [Cursor.performAll, returned, reported] using h
  | cons call calls ih =>
      have hlater := ih (h.perform call)
      simp only [List.append_assoc] at hlater
      rw [Cursor.performAll, returned_cons, reported_cons]
      exact hlater

/-- What follows an item that has been read decides what the next call gives. -/
theorem serves_holding (hreading : reading = .prepend front (.next item k behind)) :
    Serves reading (front.map Prod.fst) [] ⟨some item, behind, k⟩ := by
  have hall := hreading ▸ Reading.items_prepend front item k behind
  have hfailure := hreading ▸ Reading.failure?_prepend front item k behind
  have hlength : reading.items.length =
      (front.map Prod.fst).length + (behind.items.length + 1) := by
    rw [hall, List.length_append, List.length_cons]
  refine ⟨⟨_, hall.symm⟩, ?_, ?_, ?_, ?_, List.nil_prefix, fun _ => rfl, ?_⟩
  · rw [decide_eq_true (by omega)]
    rfl
  · intro x hx hlast
    obtain rfl : item = x := by simpa [hall] using hx
    cases behind with
    | done j => rfl
    | stopped failure j =>
        -- Here the item is the last, and has to wait for the failure.
        have hreported := hlast (by rw [hlength]; rfl)
        rw [hfailure] at hreported
        cases hreported
    | next following j rest => rfl
  · intro failure hstop hlast _
    rw [hfailure] at hstop
    cases behind with
    | done j => cases hstop
    | stopped failure j =>
        cases hstop
        rfl
    | next following j rest =>
        rw [hlength, Reading.items, List.length_cons] at hlast
        omega
  · omega
  · omega

/-- When the failure has been reported, the last item is owed. -/
theorem serves_failed (hreading : reading = .prepend front (.next item j (.stopped failure k))) :
    Serves reading (front.map Prod.fst) [failure] ⟨some item, .done k, k⟩ := by
  have hall := hreading ▸ Reading.items_prepend front item j (.stopped failure k)
  have hfailure := hreading ▸ Reading.failure?_prepend front item j (.stopped failure k)
  have hlength : reading.items.length = (front.map Prod.fst).length + 1 := by
    rw [hall, List.length_append]
    rfl
  refine ⟨⟨_, hall.symm⟩, ?_, ?_, ?_, ?_, ?_, ?_, ?_⟩
  · rw [decide_eq_true (by omega)]
    rfl
  · intro x hx _
    obtain rfl : item = x := by simpa [hall] using hx
    rfl
  · intro _ _ _ hnone
    cases hnone
  · omega
  · rw [hfailure]
    exact List.prefix_rfl
  · omega
  · omega

/-- When all items have been handed out, nothing is owed. -/
theorem serves_exhausted (behind : Reading α) (k : Nat) :
    Serves reading reading.items reading.failure?.toList ⟨none, behind, k⟩ := by
  refine ⟨List.prefix_rfl, ?_, ?_, ?_, fun _ => rfl, List.prefix_rfl, ?_, fun _ => rfl⟩
  · rw [decide_eq_false (by omega)]
    rfl
  · intro x hx _
    rw [List.getElem?_eq_none (Nat.le_refl _)] at hx
    cases hx
  · omega
  · omega

/-- **Where a cursor stands, it owes what is left of its reading.** -/
theorem serves (h : Stands reading items failures cursor) :
    Serves reading items failures cursor := by
  cases h with
  | holding hreading => exact serves_holding hreading
  | failed hreading => exact serves_failed hreading
  | exhausted hitems hfailures hk =>
      subst hitems hfailures
      exact serves_exhausted _ _

end Stands

/-- After calls in any order, a cursor stands where the answers say. -/
theorem stands_performAll (h : ofReading reading = .ok cursor) (calls : List Call) :
    Stands reading (returned (cursor.performAll calls).1) (reported (cursor.performAll calls).1)
      (cursor.performAll calls).2 := by
  simpa using (stands_of_ofReading h).performAll calls

/-- **A cursor over the characters or the words of any bytes hands out each of them once**, in
whatever order it is called.  A failure is reported once, just before the last item, and that is
handed out all the same. -/
theorem serves_of_calls (file encoding : String) (bytes : List UInt8) (calls : List Call) :
    (∀ cursor, ofCharacters encoding bytes = .ok cursor →
      Serves (Source.characters encoding bytes) (returned (cursor.performAll calls).1)
        (reported (cursor.performAll calls).1) (cursor.performAll calls).2) ∧
    (∀ cursor, ofTokens file encoding bytes = .ok cursor →
      Serves (Source.tokens file encoding bytes) (returned (cursor.performAll calls).1)
        (reported (cursor.performAll calls).1) (cursor.performAll calls).2) :=
  ⟨fun _ h => (stands_performAll h calls).serves, fun _ h => (stands_performAll h calls).serves⟩

/-- Two words and a byte that is in no text: after the first word the failure is reported, and then
the second word is still there. -/
theorem serves_of_calls_two :
    let bytes := [0x61, 0x20, 0x62, 0x20, 0xff]
    ∃ characters words, ofCharacters "utf-8" bytes = .ok characters ∧
      ofTokens "<input>" "utf-8" bytes = .ok words ∧
      ((characters.performAll [.next, .next]).2.perform .next).1 = .item 'b' ∧
      (words.performAll [.next, .next]).1 = [.item ⟨['a'], ⟨"<input>", 1, 1⟩⟩, .failure
        (.program ⟨.malformed "utf-8" 4 .invalidStart, some ⟨"<input>", 1, 5⟩⟩)] ∧
      ((words.performAll [.next, .next]).2.perform .next).1 =
        .item ⟨['b'], ⟨"<input>", 1, 3⟩⟩ := by
  refine ⟨_, _, rfl, rfl, ?_, by decide +kernel, ?_⟩
  · have h := (serves_of_calls "<input>" "utf-8" [0x61, 0x20, 0x62, 0x20, 0xff]
      [.next, .next]).1 _ rfl
    exact h.next_item 'b' (by decide +kernel) (by decide +kernel)
  · have h := (serves_of_calls "<input>" "utf-8" [0x61, 0x20, 0x62, 0x20, 0xff]
      [.next, .next]).2 _ rfl
    exact h.next_item _ (by decide +kernel) (by decide +kernel)

end Cursor

end StackAssembler

import StackAssembler.Source.Token

/-!
# Cursors

A cursor hands out the items of a reading on demand and always holds the next one, so that it can
tell whether there is one.  If reading ahead fails, the failure is reported once; the item that the
cursor holds stays, and is the last.
-/

namespace StackAssembler

/-- A reading with one item held ready. -/
structure Cursor (α : Type) where
  /-- The item to be handed out next. -/
  held : Option α
  /-- What follows it. -/
  behind : Reading α
  /-- The number of bytes read so far. -/
  bytesRead : Nat

namespace Cursor

/-- Opens a cursor by reading the first item.  If that fails, the number of bytes read is given with
the failure. -/
def ofReading {α : Type} : Reading α → Except (Failure × Nat) (Cursor α)
  | .done k => .ok ⟨none, .done k, k⟩
  | .stopped failure k => .error (failure, k)
  | .next item k rest => .ok ⟨some item, rest, k⟩

/-- Whether an item can be handed out. -/
def hasNext {α : Type} (cursor : Cursor α) : Bool := cursor.held.isSome

/-- Hands out the item held and reads the one after it.  There is no item if the cursor is
exhausted. -/
def next {α : Type} (cursor : Cursor α) : Except Failure (Option α) × Cursor α :=
  match cursor.held with
  | none => (.ok none, cursor)
  | some item =>
    match cursor.behind with
    | .done k => (.ok (some item), ⟨none, .done k, k⟩)
    | .stopped failure k => (.error failure, ⟨some item, .done k, k⟩)
    | .next following k rest => (.ok (some item), ⟨some following, rest, k⟩)

/-- The items that a cursor hands out until it is exhausted or fails, with the failure and the
cursor afterwards. -/
def drain {α : Type} (cursor : Cursor α) : List α × Option Failure × Cursor α :=
  match cursor.held with
  | none => ([], none, cursor)
  | some item => drainHolding item cursor.behind
where
  /-- Hands out everything from an item on. -/
  drainHolding (item : α) : Reading α → List α × Option Failure × Cursor α
    | .done k => ([item], none, ⟨none, .done k, k⟩)
    | .stopped failure k => ([], some failure, ⟨some item, .done k, k⟩)
    | .next following _ rest =>
      let (items, failure, cursor) := drainHolding following rest
      (item :: items, failure, cursor)

/-- A cursor over the characters of bytes. -/
def ofCharacters (encoding : String) (bytes : List UInt8) : Except (Failure × Nat) (Cursor Char) :=
  ofReading (Source.characters encoding bytes)

/-- A cursor over the words of bytes. -/
def ofTokens (file encoding : String) (bytes : List UInt8) :
    Except (Failure × Nat) (Cursor Token) :=
  ofReading (Source.tokens file encoding bytes)

/-- A cursor over the words of a cursor over characters.  The inner cursor reads one character
ahead, so it meets a failure one character early; a failure to open it has no place in the text. -/
def ofTokensAhead (file encoding : String) (bytes : List UInt8) :
    Except (Failure × Nat) (Cursor Token) :=
  match Source.characters encoding bytes with
  | .stopped failure k => .error (failure, k)
  | characters => ofReading (Token.ofCharacters file characters.ahead)

end Cursor

end StackAssembler

import StackAssembler.Failure

/-!
# Readings

The course of reading an input: the items that it yields one after the other, each with the number
of bytes that have been read when it is handed out, and how it ends.  A consumer that stops early
has caused no more bytes to be read than the last item it took says.
-/

namespace StackAssembler

/-- What reading an input yields. -/
inductive Reading (α : Type)
  /-- The input has ended, and this many bytes have been read. -/
  | done (bytesRead : Nat)
  /-- Reading has failed, and this many bytes have been read. -/
  | stopped (failure : Failure) (bytesRead : Nat)
  /-- An item is handed out when this many bytes have been read. -/
  | next (item : α) (bytesRead : Nat) (rest : Reading α)

namespace Reading

/-- The items in order. -/
def items {α : Type} : Reading α → List α
  | done _ => []
  | stopped _ _ => []
  | next item _ rest => item :: rest.items

/-- The failure that ends the reading, if one does. -/
def failure? {α : Type} : Reading α → Option Failure
  | done _ => none
  | stopped failure _ => some failure
  | next _ _ rest => rest.failure?

/-- The number of bytes that a complete reading takes. -/
def bytesRead {α : Type} : Reading α → Nat
  | done k => k
  | stopped _ k => k
  | next _ _ rest => rest.bytesRead

/-- The same course with other items. -/
def map {α β : Type} (f : α → β) : Reading α → Reading β
  | done k => done k
  | stopped failure k => stopped failure k
  | next item k rest => next (f item) k (rest.map f)

/-- The course of taking at most `count` items: the reading is over with the last of them, and the
bytes read are those it took.  Nothing is read for no items. -/
def take {α : Type} (count : Nat) (reading : Reading α) : Reading α :=
  takeAfter 0 count reading
where
  /-- Takes more items when some bytes have already been read. -/
  takeAfter (k : Nat) : Nat → Reading α → Reading α
    | 0, _ => done k
    | count + 1, next item k rest => next item k (takeAfter k count rest)
    | _, reading => reading

/-- The reading that has these items and needs no bytes. -/
def ofList {α : Type} (failure : Option Failure) : List α → Reading α
  | [] =>
    match failure with
    | none => done 0
    | some failure => stopped failure 0
  | item :: rest => next item 0 (ofList failure rest)

/-- A reading by a reader that stays one item ahead: an item is handed out when the one after it has
been read, and a failure comes instead of the item before it. -/
def ahead {α : Type} : Reading α → Reading α
  | done k => done k
  | stopped failure k => stopped failure k
  | next item _ rest => holding item rest
where
  /-- The reading when an item has been read and not handed out. -/
  holding (item : α) : Reading α → Reading α
    | done k => next item k (done k)
    | stopped failure k => stopped failure k
    | next following k rest => next item k (holding following rest)

@[simp] theorem items_map {α β : Type} (f : α → β) (reading : Reading α) :
    (reading.map f).items = reading.items.map f := by
  induction reading with
  | done => rfl
  | stopped => rfl
  | next item k rest ih => simp [map, items, ih]

@[simp] theorem failure?_map {α β : Type} (f : α → β) (reading : Reading α) :
    (reading.map f).failure? = reading.failure? := by
  induction reading with
  | done => rfl
  | stopped => rfl
  | next item k rest ih => simpa [map, failure?] using ih

@[simp] theorem bytesRead_map {α β : Type} (f : α → β) (reading : Reading α) :
    (reading.map f).bytesRead = reading.bytesRead := by
  induction reading with
  | done => rfl
  | stopped => rfl
  | next item k rest ih => simpa [map, bytesRead] using ih

@[simp] theorem items_ofList {α : Type} (failure : Option Failure) (items : List α) :
    (ofList failure items).items = items := by
  induction items with
  | nil => cases failure <;> rfl
  | cons item rest ih => simp [ofList, Reading.items, ih]

@[simp] theorem failure?_ofList {α : Type} (failure : Option Failure) (items : List α) :
    (ofList failure items).failure? = failure := by
  induction items with
  | nil => cases failure <;> rfl
  | cons item rest ih => simpa [ofList, Reading.failure?] using ih

end Reading

end StackAssembler

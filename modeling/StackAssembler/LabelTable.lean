import StackAssembler.Entries

/-!
# Label tables

A label table gives labels their addresses.  It keeps the labels in the order in which they were
first entered; a label that is entered again keeps its place.
-/

namespace StackAssembler

/-- The name of a label, without its mark. -/
abbrev LabelName := List Char

/-- Labels with their addresses, in order of arrival. -/
structure LabelTable where
  entries : List (LabelName × Int)
  nodup : (entries.map Prod.fst).Nodup

namespace LabelTable

@[ext] theorem ext {s t : LabelTable} (h : s.entries = t.entries) : s = t := by
  cases s; cases t; simp_all

instance : DecidableEq LabelTable := fun s t =>
  if h : s.entries = t.entries then isTrue (ext h) else isFalse fun e => h (e ▸ rfl)

/-- The table without labels. -/
def empty : LabelTable := ⟨[], List.nodup_nil⟩

instance : Inhabited LabelTable := ⟨empty⟩

/-- The labels in order of arrival. -/
def names (table : LabelTable) : List LabelName := table.entries.map Prod.fst

/-- How many labels there are. -/
def size (table : LabelTable) : Nat := table.entries.length

/-- The address of a label. -/
def get? (table : LabelTable) (name : LabelName) : Option Int := Entries.get? table.entries name

/-- Whether a label is in the table. -/
def contains (table : LabelTable) (name : LabelName) : Bool := decide (name ∈ table.names)

/-- Enters a label: at the end if it is new, else in its place. -/
def insert (table : LabelTable) (name : LabelName) (address : Int) : LabelTable :=
  ⟨Entries.put name address table.entries, Entries.nodup_put address table.nodup⟩

/-- Enters labels one after the other. -/
def ofList (entries : List (LabelName × Int)) : LabelTable :=
  entries.foldl (fun table entry => table.insert entry.1 entry.2) empty

@[simp] theorem entries_empty : empty.entries = [] := rfl

@[simp] theorem entries_insert (table : LabelTable) (name : LabelName) (address : Int) :
    (table.insert name address).entries = Entries.put name address table.entries := rfl

/-- A label that is entered again stays where it is. -/
theorem names_insert_of_mem {table : LabelTable} {name : LabelName} (address : Int)
    (h : name ∈ table.names) : (table.insert name address).names = table.names := by
  rw [names, entries_insert, Entries.put_of_mem address h, Entries.map_fst_replace, names]

/-- A new label comes last. -/
theorem names_insert_of_notMem {table : LabelTable} {name : LabelName} (address : Int)
    (h : name ∉ table.names) : (table.insert name address).names = table.names ++ [name] := by
  rw [names, entries_insert, Entries.put_of_notMem address h, List.map_append, names]
  rfl

/-- After a label has been entered it has its address, and all others have theirs. -/
theorem get?_insert (table : LabelTable) (name other : LabelName) (address : Int) :
    (table.insert name address).get? other =
      if other = name then some address else table.get? other :=
  Entries.get?_put name other address table.entries

end LabelTable

end StackAssembler

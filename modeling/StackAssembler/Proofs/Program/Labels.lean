import StackAssembler.Assembler
import Mathlib.Algebra.Group.Int.Defs
import Mathlib.Algebra.Group.Nat.Defs
import Mathlib.Data.List.Induction
import Mathlib.Tactic.Common

/-!
# Predefined labels

Labels can be defined before any program, and defined again and again.  What such definitions come
to is their *net*: every label in the place of its first definition and with the address of its
last.  An assembler keeps the net of its definitions, with addresses that are reduced to a word, so
of two assemblers with the same net neither can tell how it came about.

## Main definitions

* `LabelTable.wrapped`: a table with its addresses reduced to a word.
* `LabelTable.net`: what definitions come to.
-/

namespace StackAssembler

namespace LabelTable

/-! ## Tables -/

/-- In a table a label has one address, that of its entry. -/
theorem get?_eq_some_iff (table : LabelTable) (name : LabelName) (address : Int) :
    table.get? name = some address ↔ (name, address) ∈ table.entries := by
  obtain ⟨entries, nodup⟩ := table
  change Entries.get? entries name = some address ↔ (name, address) ∈ entries
  induction entries with
  | nil => simp [Entries.get?_nil]
  | cons entry rest ih =>
      rw [List.map_cons, List.nodup_cons] at nodup
      rw [Entries.get?_cons, List.mem_cons]
      by_cases h : name = entry.1
      · have hr : (name, address) ∉ rest :=
          fun hm => nodup.1 (h ▸ List.mem_map_of_mem hm)
        rw [if_pos h]
        constructor
        · intro he
          exact .inl (Prod.ext h (Option.some.inj he).symm)
        · rintro (he | hm)
          · rw [← he]
          · exact absurd hm hr
      · rw [if_neg h, ih nodup.2]
        exact ⟨.inr, fun hm => hm.resolve_left fun he => h (he ▸ rfl)⟩

/-- A label is in a table if it has an address there. -/
theorem mem_names_iff (table : LabelTable) (name : LabelName) :
    name ∈ table.names ↔ ∃ address, table.get? name = some address := by
  simp only [get?_eq_some_iff, names, List.mem_map, Prod.exists, exists_and_right, exists_eq_right]

theorem get?_eq_none {table : LabelTable} {name : LabelName} (h : name ∉ table.names) :
    table.get? name = none :=
  Entries.get?_eq_none_of_notMem h

theorem contains_iff (table : LabelTable) (name : LabelName) :
    table.contains name = true ↔ name ∈ table.names := by
  rw [contains, decide_eq_true_eq]

theorem entries_insert_of_notMem {table : LabelTable} {name : LabelName} (address : Int)
    (h : name ∉ table.names) :
    (table.insert name address).entries = table.entries ++ [(name, address)] :=
  Entries.put_of_notMem address h

theorem entries_eq_map (table : LabelTable) :
    table.entries = table.names.map fun name => (name, (table.get? name).getD 0) := by
  rw [names, List.map_map]
  conv_lhs => rw [← List.map_id table.entries]
  apply List.map_congr_left
  intro entry hm
  have hget := (table.get?_eq_some_iff entry.1 entry.2).2 hm
  simp [hget]

/-- **A table is its labels in order and their addresses.** -/
theorem eq_of_get? {table other : LabelTable} (hn : table.names = other.names)
    (hg : ∀ name, table.get? name = other.get? name) : table = other := by
  apply ext
  rw [entries_eq_map, entries_eq_map other, hn]
  simp only [hg]

/-- Entering a label again keeps the labels, and entering a new one adds it. -/
theorem names_insert (table : LabelTable) (name : LabelName) (address : Int) :
    (table.insert name address).names =
      if name ∈ table.names then table.names else table.names ++ [name] := by
  split
  · next h => exact names_insert_of_mem address h
  · next h => exact names_insert_of_notMem address h

/-! ## Addresses that are words -/

/-- The table with its addresses reduced to a word. -/
def wrapped (table : LabelTable) : LabelTable where
  entries := table.entries.map fun (name, address) => (name, address % 2 ^ 32)
  nodup := by
    rw [List.map_map]
    exact table.nodup

@[simp] theorem names_wrapped (table : LabelTable) : table.wrapped.names = table.names := by
  simp only [names, wrapped, List.map_map]
  rfl

@[simp] theorem get?_wrapped (table : LabelTable) (name : LabelName) :
    table.wrapped.get? name = (table.get? name).map (· % 2 ^ 32) := by
  apply Option.ext
  intro address
  simp only [get?_eq_some_iff, wrapped, Option.map_eq_some_iff, List.mem_map, Prod.mk.injEq,
    Prod.exists]
  constructor
  · rintro ⟨_, a, hm, rfl, rfl⟩
    exact ⟨a, hm, rfl⟩
  · rintro ⟨a, hm, rfl⟩
    exact ⟨name, a, hm, rfl, rfl⟩

theorem wrapped_insert (table : LabelTable) (name : LabelName) (address : Int) :
    (table.insert name address).wrapped = table.wrapped.insert name (Word.wrap address) := by
  apply eq_of_get?
  · simp only [names_wrapped, names_insert]
  · intro other
    simp only [get?_wrapped, get?_insert]
    split <;> rfl

/-! ## The net of definitions -/

theorem eraseDups_concat (names : List LabelName) (name : LabelName) :
    (names ++ [name]).eraseDups =
      if name ∈ names then names.eraseDups else names.eraseDups ++ [name] := by
  rw [List.eraseDups_append]
  split
  · next h => simp [List.removeAll, h]
  · next h => simp [List.removeAll, h, List.eraseDups_cons]

theorem nodup_eraseDups (names : List LabelName) : names.eraseDups.Nodup := by
  induction names using List.reverseRecOn with
  | nil => exact List.nodup_nil
  | append_singleton names name ih =>
      rw [eraseDups_concat]
      split
      · exact ih
      · next h =>
          rw [List.nodup_append]
          refine ⟨ih, by simp, fun a ha b hb e => h ?_⟩
          rw [List.mem_singleton] at hb
          exact hb ▸ e ▸ List.mem_eraseDups.1 ha

/-- The address that a label is given last. -/
def lastAddress (definitions : List (LabelName × Int)) (name : LabelName) : Option Int :=
  definitions.reverse.lookup name

/-- A label is looked up among its own definitions. -/
theorem lookup_eq_head?_filter (definitions : List (LabelName × Int)) (name : LabelName) :
    definitions.lookup name = ((definitions.filter (·.1 = name)).head?).map Prod.snd := by
  induction definitions with
  | nil => rfl
  | cons entry definitions ih =>
      rw [List.lookup_cons]
      by_cases h : entry.1 = name
      · simp [h]
      · have hne : (name == entry.1) = false := beq_eq_false_iff_ne.2 fun heq => h heq.symm
        simp [h, hne, ih]

/-- Only the definitions of a label decide its address. -/
theorem lastAddress_congr {definitions others : List (LabelName × Int)} {name : LabelName}
    (h : others.filter (·.1 = name) = definitions.filter (·.1 = name)) :
    lastAddress others name = lastAddress definitions name := by
  rw [lastAddress, lastAddress, lookup_eq_head?_filter, lookup_eq_head?_filter,
    List.filter_reverse, List.filter_reverse, h]

/-- The last definition of a label decides. -/
theorem lastAddress_append_cons {earlier later : List (LabelName × Int)} {name : LabelName}
    {address : Int} (h : ∀ entry ∈ later, entry.1 ≠ name) :
    lastAddress (earlier ++ (name, address) :: later) name = some address := by
  rw [lastAddress, List.lookup_eq_some_iff]
  refine ⟨later.reverse, earlier.reverse, by simp, fun entry hentry => ?_⟩
  exact bne_iff_ne.2 fun heq => h entry (List.mem_reverse.1 hentry) heq.symm

/-- What definitions one after the other come to: every label in the place of its first definition
and with the address of its last. -/
def net (definitions : List (LabelName × Int)) : LabelTable where
  entries := (definitions.map Prod.fst).eraseDups.map fun name =>
    (name, (lastAddress definitions name).getD 0)
  nodup := by
    simpa only [List.map_map, Function.comp_def, List.map_id'] using nodup_eraseDups _

@[simp] theorem names_net (definitions : List (LabelName × Int)) :
    (net definitions).names = (definitions.map Prod.fst).eraseDups := by
  simp only [names, net, List.map_map, Function.comp_def, List.map_id']

@[simp] theorem get?_net (definitions : List (LabelName × Int)) (name : LabelName) :
    (net definitions).get? name = lastAddress definitions name := by
  cases h : lastAddress definitions name with
  | some address =>
      rw [get?_eq_some_iff]
      have hm : name ∈ definitions.map Prod.fst := by
        obtain ⟨_, _, hd, -⟩ := List.lookup_eq_some_iff.1 h
        have hr : (name, address) ∈ definitions.reverse := by simp [hd]
        exact List.mem_map.2 ⟨(name, address), List.mem_reverse.1 hr, rfl⟩
      exact List.mem_map.2 ⟨name, List.mem_eraseDups.2 hm, by rw [h]; rfl⟩
  | none =>
      apply get?_eq_none
      rw [names_net, List.mem_eraseDups, List.mem_map]
      rintro ⟨entry, hm, rfl⟩
      have hne := List.lookup_eq_none_iff.1 h entry (List.mem_reverse.2 hm)
      simp at hne

/-- **One more definition is entered into the net of those before.** -/
theorem net_concat (definitions : List (LabelName × Int)) (name : LabelName) (address : Int) :
    net (definitions ++ [(name, address)]) = (net definitions).insert name address := by
  apply eq_of_get?
  · rw [names_net, List.map_append, names_insert, names_net]
    simp only [List.map_cons, List.map_nil, eraseDups_concat, List.mem_eraseDups]
  · intro other
    rw [get?_insert, get?_net, get?_net, lastAddress, List.reverse_append, List.reverse_singleton,
      List.singleton_append, List.lookup_cons]
    by_cases h : other = name
    · rw [if_pos h, beq_iff_eq.2 h]
    · rw [if_neg h, beq_eq_false_iff_ne.2 h, lastAddress]

/-- Definitions of different labels come to what they are. -/
theorem entries_net {definitions : List (LabelName × Int)}
    (h : (definitions.map Prod.fst).Nodup) : (net definitions).entries = definitions := by
  induction definitions using List.reverseRecOn with
  | nil => rfl
  | append_singleton definitions definition ih =>
      rw [List.map_append, List.nodup_append] at h
      have hnew : definition.1 ∉ (net definitions).names := by
        rw [names_net, List.mem_eraseDups]
        exact fun hm => h.2.2 _ hm _ List.mem_cons_self rfl
      rw [net_concat, entries_insert_of_notMem _ hnew, ih h.1]

theorem net_entries (table : LabelTable) : net table.entries = table :=
  ext (entries_net table.nodup)

end LabelTable

/-! ## Assemblers -/

namespace Assembler

/-- A definition is entered into the net of the definitions before, reduced to a word. -/
theorem defineLabel_of_net {assembler : Assembler} {definitions : List (LabelName × Int)}
    (h : assembler.predefined = (LabelTable.net definitions).wrapped) (name : LabelName)
    (address : Int) : assembler.defineLabel name address =
      { assembler with
        predefined := (LabelTable.net (definitions ++ [(name, address)])).wrapped } := by
  rw [defineLabel, h, LabelTable.net_concat, LabelTable.wrapped_insert]

/-- **A new assembler has its labels predefined**, reduced to a word, and nothing else defined. -/
theorem new_eq (labels : LabelTable) (encoding file : String) :
    new labels encoding file = ⟨labels.wrapped, encoding, file, .empty⟩ := by
  have hfold : ∀ entries : List (LabelName × Int),
      entries.foldl (fun assembler entry => assembler.defineLabel entry.1 entry.2)
        ⟨.empty, encoding, file, .empty⟩ =
          (⟨(LabelTable.net entries).wrapped, encoding, file, .empty⟩ : Assembler) := by
    intro entries
    induction entries using List.reverseRecOn with
    | nil => rfl
    | append_singleton entries entry ih =>
        rw [List.foldl_append, List.foldl_cons, List.foldl_nil, ih, defineLabel_of_net rfl]
  rw [new, hfold, LabelTable.net_entries]

end Assembler

end StackAssembler

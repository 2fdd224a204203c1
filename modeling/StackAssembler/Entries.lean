/-!
# Entries in order of arrival

A list of keys with values in which a new key goes to the end, and a key that is there already keeps
its place and gets the new value.  Looking a key up gives the value it was last given.
-/

namespace StackAssembler

namespace Entries

variable {α β : Type} [DecidableEq α]

/-- The value of a key. -/
def get? (entries : List (α × β)) (key : α) : Option β := entries.lookup key

/-- Gives a key that is there a new value. -/
def replace (key : α) (value : β) (entries : List (α × β)) : List (α × β) :=
  entries.map fun entry => if entry.1 = key then (key, value) else entry

/-- Gives a key a value: in its place if it has one, else at the end. -/
def put (key : α) (value : β) (entries : List (α × β)) : List (α × β) :=
  if key ∈ entries.map Prod.fst then replace key value entries else entries ++ [(key, value)]

theorem put_of_mem {key : α} {entries : List (α × β)} (value : β)
    (h : key ∈ entries.map Prod.fst) : put key value entries = replace key value entries :=
  if_pos h

theorem put_of_notMem {key : α} {entries : List (α × β)} (value : β)
    (h : key ∉ entries.map Prod.fst) : put key value entries = entries ++ [(key, value)] :=
  if_neg h

theorem replace_cons (key : α) (value : β) (entry : α × β) (rest : List (α × β)) :
    replace key value (entry :: rest) =
      (if entry.1 = key then (key, value) else entry) :: replace key value rest := rfl

@[simp] theorem map_fst_replace (key : α) (value : β) (entries : List (α × β)) :
    (replace key value entries).map Prod.fst = entries.map Prod.fst := by
  induction entries with
  | nil => rfl
  | cons entry rest ih =>
      rw [replace_cons, List.map_cons, List.map_cons, ih]
      split
      · next h => rw [h]
      · rfl

theorem replace_of_notMem {key : α} {entries : List (α × β)} (value : β)
    (h : key ∉ entries.map Prod.fst) : replace key value entries = entries := by
  induction entries with
  | nil => rfl
  | cons entry rest ih =>
      rw [List.map_cons, List.mem_cons, not_or] at h
      rw [replace_cons, ih h.2, if_neg fun e => h.1 e.symm]

theorem get?_nil (key : α) : get? ([] : List (α × β)) key = none := rfl

theorem get?_cons (key : α) (entry : α × β) (rest : List (α × β)) :
    get? (entry :: rest) key = if key = entry.1 then some entry.2 else get? rest key := by
  rw [get?, List.lookup_cons]
  by_cases h : key = entry.1
  · rw [if_pos h, beq_iff_eq.2 h]
  · rw [if_neg h, beq_eq_false_iff_ne.2 h]
    rfl

theorem get?_append_singleton (key other : α) (value : β) (entries : List (α × β)) :
    get? (entries ++ [(key, value)]) other =
      (get? entries other).or (if other = key then some value else none) := by
  rw [get?, List.lookup_append]
  exact congrArg (Option.or _) (get?_cons other (key, value) [])

theorem get?_eq_none_of_notMem {key : α} {entries : List (α × β)}
    (h : key ∉ entries.map Prod.fst) : get? entries key = none := by
  induction entries with
  | nil => rfl
  | cons entry rest ih =>
      rw [List.map_cons, List.mem_cons, not_or] at h
      rw [get?_cons, if_neg h.1, ih h.2]

theorem get?_replace {key : α} {entries : List (α × β)} (value : β) (other : α)
    (h : key ∈ entries.map Prod.fst) :
    get? (replace key value entries) other =
      if other = key then some value else get? entries other := by
  induction entries with
  | nil => simp at h
  | cons entry rest ih =>
      rw [replace_cons, get?_cons, get?_cons]
      by_cases hk : entry.1 = key
      · rw [if_pos hk, hk]
        by_cases ho : other = key
        · simp only [if_pos ho]
        · simp only [if_neg ho]
          by_cases hm : key ∈ rest.map Prod.fst
          · rw [ih hm, if_neg ho]
          · rw [replace_of_notMem value hm]
      · have hm : key ∈ rest.map Prod.fst := by
          rcases List.mem_cons.1 h with he | he
          · exact absurd he.symm hk
          · exact he
        rw [if_neg hk, ih hm]
        by_cases ho : other = entry.1
        · rw [if_pos ho, if_pos ho, if_neg fun e => hk (ho ▸ e)]
        · rw [if_neg ho, if_neg ho]

/-- After a key has been given a value it has that value, and all others have theirs. -/
theorem get?_put (key other : α) (value : β) (entries : List (α × β)) :
    get? (put key value entries) other =
      if other = key then some value else get? entries other := by
  by_cases h : key ∈ entries.map Prod.fst
  · rw [put_of_mem value h, get?_replace value other h]
  · rw [put_of_notMem value h, get?_append_singleton]
    by_cases ho : other = key
    · rw [if_pos ho, if_pos ho, ho, get?_eq_none_of_notMem h]
      rfl
    · rw [if_neg ho, if_neg ho, Option.or_none]

/-- No key comes twice, if none did. -/
theorem nodup_put {key : α} {entries : List (α × β)} (value : β)
    (h : (entries.map Prod.fst).Nodup) : ((put key value entries).map Prod.fst).Nodup := by
  by_cases hm : key ∈ entries.map Prod.fst
  · rw [put_of_mem value hm, map_fst_replace]
    exact h
  · rw [put_of_notMem value hm, List.map_append, List.nodup_append]
    refine ⟨h, by simp, fun a ha b hb e => hm ?_⟩
    simp only [List.map_cons, List.map_nil, List.mem_singleton] at hb
    exact hb ▸ e ▸ ha

end Entries

end StackAssembler

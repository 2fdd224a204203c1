import StackAssembler.Proofs.Source.Positions

/-!
# Lines of a text

A text of lines has a newline after each of its lines, or only between each two of them.  In both
the lines are found again.  Lines without spaces are the words of their text, so the word of a
number stands at the beginning of the line of that number.

## Main definitions

* `joinLines`: lines with a newline between each two.
-/

namespace StackAssembler

/-- Lines that have a newline after each of them are found again, and nothing is behind them. -/
theorem splitOn_lines {lines : List (List Char)} (h : ∀ line ∈ lines, '\n' ∉ line) :
    (lines.flatMap (· ++ ['\n'])).splitOn '\n' = lines ++ [[]] := by
  induction lines with
  | nil => rfl
  | cons line lines ih =>
      rw [List.forall_mem_cons] at h
      rw [List.flatMap_cons, List.append_assoc, List.singleton_append,
        List.splitOn_append_cons_self_of_not_mem h.1, ih h.2, List.cons_append]

/-- Lines with a newline between each two. -/
def joinLines (lines : List (List Char)) : List Char :=
  weave lines (List.replicate (lines.length - 1) '\n')

/-- Lines that have a newline after each of them. -/
theorem weave_newlines {lines : List (List Char)} {count : Nat} (h : lines.length ≤ count) :
    weave lines (List.replicate count '\n') = lines.flatMap (· ++ ['\n']) := by
  induction lines generalizing count with
  | nil => rfl
  | cons line lines ih =>
      obtain ⟨more, rfl⟩ := Nat.exists_eq_add_of_le h
      rw [List.length_cons, Nat.add_right_comm, List.replicate_succ, weave_cons,
        ih (Nat.le_add_right _ more), List.flatMap_cons, List.append_assoc, List.singleton_append]

/-- A newline after the last line completes the lines. -/
theorem joinLines_concat {lines : List (List Char)} (h : lines ≠ []) :
    joinLines lines ++ ['\n'] = lines.flatMap (· ++ ['\n']) := by
  induction lines with
  | nil => exact absurd rfl h
  | cons line lines ih =>
      cases lines with
      | nil => simp [joinLines, weave_singleton]
      | cons next rest =>
          have hrest := ih (List.cons_ne_nil next rest)
          have hjoin : joinLines (line :: next :: rest) =
              line ++ '\n' :: joinLines (next :: rest) := weave_cons ..
          rw [hjoin, List.append_assoc, List.cons_append, hrest]
          simp

/-- After complete lines a new one has been begun. -/
theorem Position.after_lines {lines : List (List Char)} (h : ∀ line ∈ lines, '\n' ∉ line) :
    after (lines.flatMap (· ++ ['\n'])) = ⟨1 + lines.length, 1⟩ := by
  induction lines using List.reverseRecOn with
  | nil => rfl
  | append_singleton lines line ih =>
      have hlines := ih fun other hm => h other (List.mem_append_left _ hm)
      have hcount : line.count '\n' = 0 := List.count_eq_zero.2 (h line (by simp))
      have hnumber : (after (lines.flatMap (· ++ ['\n']) ++ line)).line =
          (after (lines.flatMap (· ++ ['\n']))).line := by
        simp only [after, List.count_append, hcount, Nat.add_zero]
      rw [List.flatMap_append, List.flatMap_singleton, ← List.append_assoc, after_newline,
        nextLine, hnumber, hlines, List.length_append, List.length_singleton, Nat.add_assoc]

theorem newline_notMem_of_unbroken {line : List Char} (h : ∀ c ∈ line, isBreak c = false) :
    '\n' ∉ line := by
  intro hm
  cases h '\n' hm

variable {lines : List (List Char)}

theorem length_eq_of_ne_nil (h : lines ≠ []) :
    lines.length = (List.replicate (lines.length - 1) '\n').length + 1 := by
  have hpos := List.length_pos_iff.2 h
  rw [List.length_replicate]
  omega

theorem isBreak_of_mem_replicate {count : Nat} :
    ∀ c ∈ List.replicate count '\n', isBreak c = true :=
  fun _ hc => List.eq_of_mem_replicate hc ▸ rfl

/-- Lines without breaks are the words of their text. -/
theorem wordsOf_joinLines (hne : lines ≠ [])
    (h : ∀ line ∈ lines, ∀ c ∈ line, isBreak c = false) : wordsOf (joinLines lines) = lines :=
  wordsOf_weave (length_eq_of_ne_nil hne) h isBreak_of_mem_replicate

/-- **Each of them has the place at which its line begins.** -/
theorem getElem?_tokensOf_joinLines (file : String) (hne : lines ≠ [])
    (h : ∀ line ∈ lines, ∀ c ∈ line, isBreak c = false) (k : Nat) :
    (tokensOf file (joinLines lines))[k]? = lines[k]?.map fun line => ⟨line, ⟨file, k + 1, 1⟩⟩ := by
  have htokens := Cutting.getElem?_tokens_weave file [] (length_eq_of_ne_nil hne) h
    isBreak_of_mem_replicate k
  refine htokens.trans (Option.map_congr fun line hline => ?_)
  obtain ⟨hk, -⟩ := List.getElem?_eq_some_iff.1 hline
  have hcount : (lines.take k).length ≤ lines.length - 1 := by
    rw [List.length_take]
    omega
  have hlines : ∀ line ∈ lines.take k, '\n' ∉ line :=
    fun line hm => newline_notMem_of_unbroken (h line (List.mem_of_mem_take hm))
  rw [List.nil_append, weave_newlines hcount, Position.after_lines hlines, List.length_take,
    Nat.min_eq_left (Nat.le_of_lt hk), Nat.add_comm]
  rfl

end StackAssembler

import StackAssembler.Proofs.Source.Words

/-!
# The places of words

A place is determined by the text before it: its line by how many newlines there are, and its column
by how many characters follow the last of them.  The place of a word is that of its first character,
or of the break that ends it if the word is empty.  The cutter keeps no text, only places, and gives
every word the place that the text before it determines.

## Main definitions

* `Position.after`: the place after a text.
* `beforeWord`: the text before a word.
* `wordLocation`: the place of a word.
-/

namespace StackAssembler

/-- The place after a text: every newline has begun a line, and every character since the last of
them has taken a column. -/
def Position.after (text : List Char) : Position :=
  ⟨1 + text.count '\n', 1 + (text.reverse.takeWhile (· != '\n')).length⟩

/-- The text before the word of number `k`, counted from zero: the words before it, each with the
break after it. -/
def beforeWord (text : List Char) (k : Nat) : List Char :=
  weave ((wordsOf text).take k) (text.filter isBreak)

/-- The place of the word of number `k`, counted from zero. -/
def wordLocation (file : String) (text : List Char) (k : Nat) : Location :=
  .ofPosition file (.after (beforeWord text k))

namespace Position

theorem after_newline (text : List Char) : after (text ++ ['\n']) = (after text).nextLine := by
  simp [after, nextLine, Nat.add_assoc]

theorem after_concat {c : Char} (h : c ≠ '\n') (text : List Char) :
    after (text ++ [c]) = (after text).nextColumn := by
  simp [after, nextColumn, h, Nat.add_assoc]

end Position

/-- Words come after the words before them. -/
theorem prefix_weave_take {words : List (List Char)} {breaks : List Char}
    (hlength : words.length = breaks.length + 1) {k : Nat} {word : List Char}
    (h : words[k]? = some word) : weave (words.take k) breaks ++ word <+: weave words breaks := by
  induction breaks generalizing words k with
  | nil =>
      obtain ⟨only, rfl⟩ := List.length_eq_one_iff.1 hlength
      obtain ⟨rfl, rfl⟩ : k = 0 ∧ only = word := by simpa [List.getElem?_singleton] using h
      rw [weave_singleton]
      exact List.prefix_refl only
  | cons c breaks ih =>
      obtain ⟨first, rest, rfl⟩ := List.exists_cons_of_length_eq_add_one hlength
      rw [weave_cons]
      cases k with
      | zero =>
          obtain rfl : first = word := by simpa using h
          exact List.prefix_append _ _
      | succ k =>
          rw [List.take_succ_cons, weave_cons, List.append_assoc, List.cons_append,
            List.prefix_append_right_inj, List.cons_prefix_cons]
          exact ⟨rfl, ih (Nat.succ.inj hlength) h⟩

/-- The word of a number stands after the text before it. -/
theorem prefix_beforeWord {text word : List Char} {k : Nat}
    (h : (wordsOf text)[k]? = some word) : beforeWord text k ++ word <+: text := by
  have hp := prefix_weave_take (length_wordsOf text) h
  rwa [weave_wordsOf] at hp

namespace Cutting

/-- After a text at whose end a word starts. -/
def startingAfter (front : List Char) : Cutting := ⟨.after front, .after front, []⟩

/-- **The place reached is the one after the text.** -/
theorem here_after {cutting : Cutting} {front : List Char} (h : cutting.here = .after front)
    (text : List Char) : (cutting.after text).here = .after (front ++ text) := by
  induction text using List.reverseRecOn with
  | nil => rw [List.append_nil, ← h, after, List.foldl_nil]
  | append_singleton text c ih =>
      rw [after_append, after, List.foldl_cons, List.foldl_nil, next, ← List.append_assoc]
      split_ifs with hs hn
      · rw [hs, Position.after_concat (by decide), ← ih]
      · rw [hn, Position.after_newline, ← ih]
      · rw [Position.after_concat hn, ← ih]

/-- At the end of a text the place after it has been reached. -/
theorem reached_after (file : String) (text : List Char) :
    (first.after text).reached file = .ofPosition file (.after text) := by
  have hstart : first.here = .after [] := rfl
  rw [reached, here_after hstart, List.nil_append]

/-- After a break a word starts at the place reached. -/
theorem next_break {c : Char} (h : isBreak c = true) (cutting : Cutting) :
    cutting.next c = ⟨(cutting.next c).here, (cutting.next c).here, []⟩ := by
  simp only [isBreak, Bool.or_eq_true, beq_iff_eq] at h
  rcases h with rfl | rfl <;> rfl

theorem startingAfter_break {c : Char} (h : isBreak c = true) (front text : List Char) :
    ((startingAfter front).after text).next c = startingAfter (front ++ text ++ [c]) := by
  have hfront : (startingAfter front).here = .after front := rfl
  have hhere := here_after hfront (text ++ [c])
  rw [after_append, after_cons, after, List.foldl_nil] at hhere
  rw [next_break h, hhere, startingAfter, List.append_assoc]

/-- **Words have the places that the texts before them determine.** -/
theorem getElem?_tokens_weave (file : String) (front : List Char) {words : List (List Char)}
    {breaks : List Char} (hlength : words.length = breaks.length + 1)
    (hwords : ∀ word ∈ words, ∀ c ∈ word, isBreak c = false)
    (hbreaks : ∀ c ∈ breaks, isBreak c = true) (k : Nat) :
    ((startingAfter front).tokens file (weave words breaks))[k]? = words[k]?.map fun word =>
      ⟨word, .ofPosition file (.after (front ++ weave (words.take k) breaks))⟩ := by
  induction breaks generalizing front words k with
  | nil =>
      obtain ⟨word, rfl⟩ := List.length_eq_one_iff.1 hlength
      rw [weave_singleton, tokens_unbroken file _ (hwords word List.mem_cons_self)]
      cases k with
      | zero => simp [weave, startingAfter]
      | succ k => rfl
  | cons c breaks ih =>
      obtain ⟨word, rest, rfl⟩ := List.exists_cons_of_length_eq_add_one hlength
      rw [List.forall_mem_cons] at hwords hbreaks
      rw [weave_cons, tokens_append_break file _ word hbreaks.1,
        tokens_unbroken file _ hwords.1, startingAfter_break hbreaks.1]
      cases k with
      | zero => simp [weave, startingAfter]
      | succ k =>
          have hrest := ih (front ++ word ++ [c]) (Nat.succ.inj hlength) hwords.2 hbreaks.2 k
          rw [List.singleton_append, List.getElem?_cons_succ, hrest, List.getElem?_cons_succ,
            List.take_succ_cons, weave_cons]
          simp only [List.append_assoc, List.singleton_append]

end Cutting

/-- **The words of a text, each at its place.** -/
theorem getElem?_tokensOf (file : String) (text : List Char) (k : Nat) :
    (tokensOf file text)[k]? =
      (wordsOf text)[k]?.map fun word => ⟨word, wordLocation file text k⟩ := by
  have hplaces := Cutting.getElem?_tokens_weave file [] (length_wordsOf text)
    (fun word hm => unbroken_of_mem_wordsOf hm) (fun c hc => (List.mem_filter.1 hc).2) k
  rwa [weave_wordsOf] at hplaces

namespace Token

/-- **Cutting a text into words loses nothing, and places every word.**  There is one word more than
there are breaks, no word has a break in it, and the words with the breaks between them are the text
again.  The text before a word is the words before it with the breaks after them, and the word has
the place after that text. -/
theorem ofCharacters_lossless (file : String) (text : List Char) :
    let reading := ofCharacters file (Reading.ofList none text)
    let breaks := text.filter isBreak
    reading.failure? = none ∧ reading.items.length = breaks.length + 1 ∧
      (∀ token ∈ reading.items, ∀ c ∈ token.text, c ≠ ' ' ∧ c ≠ '\n') ∧
      weave (reading.items.map Token.text) breaks = text ∧
      ∀ k token, reading.items[k]? = some token →
        let before := weave ((reading.items.take k).map Token.text) breaks
        before ++ token.text <+: text ∧
          token.location = ⟨file, 1 + before.count '\n',
            1 + (before.reverse.takeWhile (· != '\n')).length⟩ := by
  intro reading breaks
  have hread : (Reading.ofList none text).failure? = none := Reading.failure?_ofList none text
  have hitems : reading.items = tokensOf file text := by
    rw [items_ofCharacters_of_none file hread, Reading.items_ofList]
  have htexts : reading.items.map Token.text = wordsOf text := by rw [hitems, texts_tokensOf]
  refine ⟨?_, ?_, ?_, ?_, ?_⟩
  · rw [failure?_ofCharacters, hread]
    rfl
  · rw [← length_wordsOf, ← htexts, List.length_map]
  · intro token hm c hc
    have hword : token.text ∈ wordsOf text := htexts ▸ List.mem_map_of_mem hm
    simpa [isBreak] using unbroken_of_mem_wordsOf hword c hc
  · rw [htexts, weave_wordsOf]
  · intro k token hk before
    have hbefore : before = beforeWord text k := by
      rw [beforeWord, ← htexts, ← List.map_take]
    rw [hitems, getElem?_tokensOf, Option.map_eq_some_iff] at hk
    obtain ⟨word, hword, rfl⟩ := hk
    rw [hbefore]
    exact ⟨prefix_beforeWord hword, rfl⟩

/-- Two breaks in a row: the word between them is empty, and is placed where the second one is. -/
example : (ofCharacters "a.sm" (Reading.ofList none ['a', ' ', '\n', 'b'])).items =
    [⟨['a'], ⟨"a.sm", 1, 1⟩⟩, ⟨[], ⟨"a.sm", 1, 3⟩⟩, ⟨['b'], ⟨"a.sm", 2, 1⟩⟩] := by
  decide

end Token

end StackAssembler

import StackAssembler.Proofs.Program.Refusal
import StackAssembler.Proofs.Source.BytesRead

/-!
# How far a program is read

Who reads a text in UTF-8 on demand has caused no byte to be read that is not needed.  In
particular, a program that fails at a word has been read through the break after that word, and what
follows it is left for others who read from the same place.

## Main definitions

* `ReadsThrough`: a number of bytes that ends with the break after a word.
-/

namespace StackAssembler

open Encoding

/-- The word of number `k`, counted from zero, is followed by a break; the bytes read end with that
break, and what comes after it is not read. -/
def ReadsThrough (text : List Char) (k : Nat) (word : List Char) (bytesRead : Nat) : Prop :=
  ∃ c rest, isBreak c = true ∧ text = beforeWord text k ++ word ++ c :: rest ∧
    bytesRead = (Utf8.encode (beforeWord text k ++ word ++ [c])).length ∧
    (Utf8.encode text).drop bytesRead = Utf8.encode rest

/-- What is needed for the next word to begin ends with the break before it. -/
theorem readsThrough_of_lt {text word : List Char} {k : Nat} (h : (wordsOf text)[k]? = some word)
    (hlast : k + 1 < (wordsOf text).length) :
    ReadsThrough text k word (Utf8.encode (beforeWord text (k + 1))).length := by
  obtain ⟨c, rest, hc, hnext, hall⟩ := beforeWord_succ h hlast
  refine ⟨c, rest, hc, ?_, congrArg (fun text => (Utf8.encode text).length) hnext, ?_⟩
  · rw [List.append_cons, ← hnext, ← hall]
  · have hbytes : Utf8.encode text =
        Utf8.encode (beforeWord text (k + 1)) ++ Utf8.encode rest := by
      conv_lhs => rw [hall]
      exact List.flatMap_append
    rw [hbytes, List.drop_left]

/-! ## Programs that fail -/

/-- **Nothing is read after the word that fails.** -/
theorem Scope.bytesRead_assemble_of_failsAt {scope : Scope} {reading : Reading Token} {i : Nat}
    {failure : Failure} (h : scope.FailsAt reading.items i failure) (j : Nat) :
    (scope.assemble reading).bytesRead =
      (Reading.take.takeAfter j (i + 1) reading).bytesRead := by
  induction reading generalizing scope i j with
  | done k => exact absurd h.lt_length (Nat.not_lt_zero i)
  | stopped other k => exact absurd h.lt_length (Nat.not_lt_zero i)
  | next token k rest ih =>
      cases i with
      | zero =>
          rw [Scope.assemble_next_of_error ((failsAt_cons_zero_iff ..).1 h)]
          rfl
      | succ i =>
          obtain ⟨word, later, hs, hrest⟩ := (failsAt_cons_succ_iff ..).1 h
          rw [Scope.assemble_next_of_ok hs]
          exact ih hrest k

namespace Assembler

theorem bytesRead_assembleBytes (assembler : Assembler) (bytes : List UInt8) (file : String) :
    (assembler.assembleBytes bytes file).bytesRead = ((Scope.start assembler.predefined).assemble
      (Source.tokens file assembler.encoding bytes)).bytesRead := by
  rw [assembleBytes]
  split <;> rfl

variable {assembler : Assembler} {text : List Char} {file : Option String} {failure : Failure}

/-- A text in UTF-8 is always read to its end, so that what fails is a word. -/
theorem exists_failsAt_of_utf8 (hname : ofName? assembler.encoding = some .utf8)
    (h : (assembler.assemble (.bytes (Utf8.encode text)) file).result = .error failure) :
    ∃ i, (Scope.start assembler.predefined).FailsAt
      (tokensOf (file.getD assembler.file) text) i failure := by
  obtain ⟨hitems, hnone⟩ := Source.tokens_encode hname (file.getD assembler.file) text
  have hrun := (result_eq_error_iff failure).1 h
  rw [outcome, Scope.outcome_of_none hnone, hitems] at hrun
  exact (Scope.run_eq_error_iff ..).1 hrun

/-- A program that fails at a word has caused it to be read, and the break after it. -/
theorem bytesRead_of_failsAt (hname : ofName? assembler.encoding = some .utf8) {i : Nat}
    (h : (Scope.start assembler.predefined).FailsAt
      (tokensOf (file.getD assembler.file) text) i failure) :
    (assembler.assemble (.bytes (Utf8.encode text)) file).bytesRead =
      (Utf8.encode (beforeWord text (i + 1))).length := by
  rw [← (Source.tokens_encode hname (file.getD assembler.file) text).1] at h
  calc
    _ = _ := bytesRead_assembleBytes assembler (Utf8.encode text) (file.getD assembler.file)
    _ = _ := Scope.bytesRead_assemble_of_failsAt h 0
    _ = _ := Source.bytesRead_take_tokens hname _ text (i + 1)

/-- **A text in UTF-8 is read as it is needed, to the byte.**  Characters take their own bytes, and
words that are not the last one theirs and those of the breaks after them.  So a program that fails
at a word before a break has been read through that break.  A cursor over the characters has read
one more than it has handed out, or everything. -/
theorem reads_lazily {encoding : String} (hname : ofName? encoding = some .utf8)
    (text : List Char) :
    let bytes := Utf8.encode text
    (∀ k, ((Source.characters encoding bytes).take k).items = text.take k ∧
      ((Source.characters encoding bytes).take k).bytesRead =
        (Utf8.encode (text.take k)).length) ∧
    (∀ file k token, (Source.tokens file encoding bytes).items[k]? = some token →
      k + 1 < (Source.tokens file encoding bytes).items.length →
      ReadsThrough text k token.text
        ((Source.tokens file encoding bytes).take (k + 1)).bytesRead) ∧
    (∀ (assembler : Assembler) (file : Option String) (failure : Failure),
      assembler.encoding = encoding →
      (assembler.assemble (.bytes bytes) file).result = .error failure →
      ∃ i word, (wordsOf text)[i]? = some word ∧
        (Scope.start assembler.predefined).FailsAt (tokensOf (file.getD assembler.file) text) i
          failure ∧
        (i + 1 < (wordsOf text).length →
          ReadsThrough text i word (assembler.assemble (.bytes bytes) file).bytesRead)) ∧
    ∃ cursor, Cursor.ofCharacters encoding bytes = .ok cursor ∧ ∀ calls,
      (cursor.performAll calls).2.bytesRead = (Utf8.encode
        (text.take ((Cursor.returned (cursor.performAll calls).1).length + 1))).length := by
  intro bytes
  have htext := Source.characters_encode hname text
  refine ⟨fun k => ⟨?_, ?_⟩, ?_, ?_, ?_⟩
  · rw [Reading.take, Reading.items_takeAfter, htext.1]
  · exact Source.bytesRead_take_characters hname text k
  · intro file k token htoken hlast
    have hitems := (Source.tokens_encode hname file text).1
    rw [hitems, getElem?_tokensOf, Option.map_eq_some_iff] at htoken
    rw [hitems, length_tokensOf] at hlast
    obtain ⟨word, hword, rfl⟩ := htoken
    rw [Source.bytesRead_take_tokens hname]
    exact readsThrough_of_lt hword hlast
  · rintro assembler file failure rfl h
    obtain ⟨i, hfails⟩ := exists_failsAt_of_utf8 hname h
    have hi := hfails.lt_length
    rw [length_tokensOf] at hi
    refine ⟨i, _, List.getElem?_eq_getElem hi, hfails, fun hlast => ?_⟩
    rw [bytesRead_of_failsAt hname hfails]
    exact readsThrough_of_lt (List.getElem?_eq_getElem hi) hlast
  · obtain ⟨cursor, hcursor⟩ := Cursor.exists_ofReading htext.2
    refine ⟨cursor, hcursor, fun calls => ?_⟩
    rw [(Cursor.stands_performAll hcursor calls).bytesRead_eq htext.2]
    exact Source.bytesRead_take_characters hname text _

/-- A program whose second word is an accented letter, which takes two bytes: these and the newline
after it are read, and the third word is not. -/
theorem reads_lazily_accent :
    let text := ['n', 'o', 'p', ' ', '\u00e9', '\n', 'n', 'o', 'p']
    let assembly := (new .empty "utf-8" "<input>").assemble (.bytes (Utf8.encode text)) none
    assembly.result =
        .error (.program ⟨.unrecognized ['\u00e9'], some ⟨"<input>", 1, 5⟩⟩) ∧
      ReadsThrough text 1 ['\u00e9'] assembly.bytesRead := by
  intro text assembly
  have hresult : assembly.result =
      .error (.program ⟨.unrecognized ['\u00e9'], some ⟨"<input>", 1, 5⟩⟩) := by
    decide +kernel
  have hsecond : (Scope.start .empty).FailsAt (tokensOf "<input>" text) 1
      (.program ⟨.unrecognized ['\u00e9'], some ⟨"<input>", 1, 5⟩⟩) :=
    ⟨_, _, _, rfl, rfl, rfl⟩
  obtain ⟨i, word, hword, hfails, hthrough⟩ :=
    (reads_lazily Utf8.ofName?_eq text).2.2.1 _ none _ rfl hresult
  obtain ⟨rfl, -⟩ := hfails.unique hsecond
  obtain rfl : ['\u00e9'] = word := Option.some.inj hword
  exact ⟨hresult, hthrough (by decide +kernel)⟩

end Assembler

end StackAssembler

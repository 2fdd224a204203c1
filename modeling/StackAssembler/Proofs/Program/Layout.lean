import StackAssembler.Proofs.Program.Places
import StackAssembler.Proofs.Source.Bytes
import Mathlib.Data.List.Forall2

/-!
# The layout of a program

A space and a newline end a word alike, so a program may be laid out in lines in any way.  Another
layout moves the words to other places, and changes nothing else: the two programs come to the same
words and labels, or fail alike.  This holds of bytes that are no text, too, for a space goes on a
character as little as a newline does.

## Main definitions

* `Relaid`: the same text or bytes in another layout.
-/

namespace StackAssembler

/-- The same items, but for breaks that may be other breaks. -/
def Relaid {α : Type} (isBreak : α → Bool) (items others : List α) : Prop :=
  List.Forall₂ (fun item other => item = other ∨ isBreak item = true ∧ isBreak other = true)
    items others

instance {α : Type} [DecidableEq α] (isBreak : α → Bool) (items others : List α) :
    Decidable (Relaid isBreak items others) :=
  inferInstanceAs (Decidable (List.Forall₂ _ items others))

theorem Relaid.refl {α : Type} (isBreak : α → Bool) (items : List α) :
    Relaid isBreak items items :=
  List.forall₂_same.2 fun _ _ => .inl rfl

/-! ## Words -/

namespace Cutting

variable {text other : List Char} {cutting place : Cutting}

theorem relocate_token (file : String) (h : cutting.word = place.word) :
    (cutting.token file).relocate Location.unplaced =
      (place.token file).relocate Location.unplaced := by
  rw [token, token, Token.relocate, Token.relocate, h]
  rfl

/-- The words of a text in another layout are at other places. -/
theorem completed_relaid (file : String) (h : Relaid isBreak text other)
    (hword : cutting.word = place.word) :
    (cutting.completed file text).map (Token.relocate Location.unplaced) =
        (place.completed file other).map (Token.relocate Location.unplaced) ∧
      (cutting.after text).word = (place.after other).word := by
  induction h generalizing cutting place with
  | nil => exact ⟨rfl, hword⟩
  | @cons c d text other hcd _ ih =>
      by_cases hc : isBreak c = true
      · have hd : isBreak d = true := hcd.elim (fun e => e ▸ hc) And.right
        obtain ⟨hmap, hafter⟩ := ih ((word_next hc cutting).trans (word_next hd place).symm)
        rw [completed_break file _ hc, completed_break file _ hd, List.map_cons, List.map_cons,
          hmap, relocate_token file hword]
        exact ⟨rfl, hafter⟩
      · obtain rfl : c = d := hcd.resolve_right fun e => hc e.1
        have hnext : (cutting.next c).word = (place.next c).word := by
          rw [next_unbroken (by simpa using hc), next_unbroken (by simpa using hc), hword]
        rw [completed, if_neg hc, completed, if_neg hc]
        exact ih hnext

end Cutting

/-- The words that are read of a text in another layout are at other places, and so is a failure. -/
theorem Token.ofCharacters_relaid (file : String) {reading other : Reading Char}
    (h : Relaid isBreak reading.items other.items) (hf : reading.failure? = other.failure?) :
    (ofCharacters file reading).items.map (Token.relocate Location.unplaced) =
        (ofCharacters file other).items.map (Token.relocate Location.unplaced) ∧
      (ofCharacters file reading).failure?.map (Failure.relocate Location.unplaced) =
        (ofCharacters file other).failure?.map (Failure.relocate Location.unplaced) := by
  have hfirst : Cutting.first.word = Cutting.first.word := rfl
  obtain ⟨hmap, hword⟩ := Cutting.completed_relaid file h hfirst
  constructor
  · rw [items_ofCharacters, items_ofCharacters, hf, List.map_append, List.map_append, hmap]
    split
    · rw [List.map_singleton, List.map_singleton, Cutting.relocate_token file hword]
    · rfl
  · rw [failure?_ofCharacters, failure?_ofCharacters, hf]
    cases other.failure? with
    | none => rfl
    | some failure => exact congrArg some (Failure.relocate_locate _ failure rfl)

/-! ## Bytes -/

namespace Encoding.Utf8

/-- A byte at which a program is cut is a character by itself. -/
theorem judge_breakByte {byte : UInt8} (h : isBreakByte byte = true) :
    ∃ c, isBreak c = true ∧ judge [byte] = .whole [c.toNat] := by
  simp only [isBreakByte, Bool.or_eq_true, beq_iff_eq] at h
  rcases h with rfl | rfl
  · exact ⟨' ', rfl, rfl⟩
  · exact ⟨'\n', rfl, rfl⟩

/-- Such a byte does not go on a character that has begun. -/
theorem judge_concat_breakByte {pending : List UInt8} (ha : form.Awaits pending)
    (hne : pending ≠ []) {byte : UInt8} (h : isBreakByte byte = true) :
    judge (pending ++ [byte]) = .bad .invalidContinuation := by
  have hlength := length_le_of_awaits ha
  have htail : isTail byte = false := by
    rw [isBreakByte_iff] at h
    rw [← Bool.not_eq_true, isTail_iff]
    omega
  rcases pending with _ | ⟨a, _ | ⟨b, _ | ⟨c, _ | ⟨d, rest⟩⟩⟩⟩
  · exact absurd rfl hne
  · simp [judge, admits, htail]
  · simp [judge, htail]
  · simp [judge, htail]
  · rw [List.length_cons, List.length_cons, List.length_cons, List.length_cons] at hlength
    omega

end Encoding.Utf8

namespace Source

open Encoding

/-- **Bytes in another layout are read as the text in another layout**, or break at the same
offset. -/
theorem readFrom_relaid (name : String) {bytes other : List UInt8}
    (h : Relaid isBreakByte bytes other) {pending : List UInt8} (ha : Utf8.form.Awaits pending)
    (offset : Nat) :
    Relaid isBreak (readFrom name Utf8.form.decoder pending offset bytes).items
        (readFrom name Utf8.form.decoder pending offset other).items ∧
      (readFrom name Utf8.form.decoder pending offset bytes).failure? =
        (readFrom name Utf8.form.decoder pending offset other).failure? := by
  induction h generalizing pending offset with
  | nil => exact ⟨.refl _ _, rfl⟩
  | @cons byte byte' bytes other hbyte _ ih =>
      rcases hbyte with rfl | ⟨hb, hb'⟩
      · cases hj : Utf8.form.judge (pending ++ [byte]) with
        | whole codePoints =>
            obtain ⟨c, -, rfl⟩ := Utf8.form_reads.sound pending byte codePoints ha hj
            obtain ⟨hi, hf⟩ := ih (Form.awaits_nil _) (offset + 1)
            rw [readFrom_cons_whole name hj, readFrom_cons_whole name hj]
            exact ⟨.cons (.inl rfl) hi, hf⟩
        | part =>
            rw [readFrom_cons_part name hj, readFrom_cons_part name hj]
            exact ih (ha.concat hj) (offset + 1)
        | bad flaw =>
            rw [readFrom_cons_bad name hj, readFrom_cons_bad name hj]
            exact ⟨.refl _ _, rfl⟩
      · by_cases hne : pending = []
        · subst hne
          obtain ⟨c, hc, hj⟩ := Utf8.judge_breakByte hb
          obtain ⟨d, hd, hj'⟩ := Utf8.judge_breakByte hb'
          obtain ⟨hi, hf⟩ := ih (Form.awaits_nil _) (offset + 1)
          rw [readFrom_cons_whole name hj, readFrom_cons_whole name hj']
          exact ⟨.cons (.inr ⟨hc, hd⟩) hi, hf⟩
        · have hj := Utf8.judge_concat_breakByte ha hne hb
          have hj' := Utf8.judge_concat_breakByte ha hne hb'
          rw [readFrom_cons_bad name hj, readFrom_cons_bad name hj']
          exact ⟨.refl _ _, rfl⟩

theorem characters_relaid {name : String} (hname : ofName? name = some .utf8)
    {bytes other : List UInt8} (h : Relaid isBreakByte bytes other) :
    Relaid isBreak (characters name bytes).items (characters name other).items ∧
      (characters name bytes).failure? = (characters name other).failure? := by
  rw [characters_of_name hname, characters_of_name hname]
  exact readFrom_relaid name h (Form.awaits_nil _) 0

end Source

namespace Assembler

/-- **The layout of a program does not matter.**  With other breaks for some of its spaces and
newlines a program gives the same words and leaves the same labels and the same index, or it fails
alike: the failures differ in lines and columns only.  In what they say, that is the hint where a
label was first defined, and nothing else. -/
theorem assemble_relaid (assembler : Assembler)
    (hname : Encoding.ofName? assembler.encoding = some .utf8) {bytes other : List UInt8}
    (h : Relaid isBreakByte bytes other) (name : Option String) :
    let first := assembler.assemble (.bytes bytes) name
    let second := assembler.assemble (.bytes other) name
    (∀ words, first.result = .ok words ↔ second.result = .ok words) ∧
    first.assembler.labels = second.assembler.labels ∧
    first.assembler.index = second.assembler.index ∧
    ∀ failure, first.result = .error failure → ∃ failure', second.result = .error failure' ∧
      failure.relocate Location.unplaced = failure'.relocate Location.unplaced ∧
      ∀ diagnostic, failure = .program diagnostic → ∃ diagnostic',
        failure' = .program diagnostic' ∧
        diagnostic.cause.description = diagnostic'.cause.description ∧
        (diagnostic.cause.hint = diagnostic'.cause.hint ∨ ∃ label place place',
          place.file = place'.file ∧ diagnostic.cause = .duplicateLabel label (some place) ∧
          diagnostic'.cause = .duplicateLabel label (some place')) := by
  intro first second
  have houtcome : Scope.relocateResult Location.unplaced
        (assembler.outcome bytes (name.getD assembler.file)) =
      Scope.relocateResult Location.unplaced
        (assembler.outcome other (name.getD assembler.file)) := by
    obtain ⟨hread, hflaw⟩ := Source.characters_relaid hname h
    obtain ⟨hitems, hfailure⟩ := Token.ofCharacters_relaid (name.getD assembler.file) hread hflaw
    exact Scope.outcome_relocate _ _ hitems hfailure
  obtain ⟨hwords, hlabels, hindex, hfailures⟩ := assembleBytes_of_relocate _ houtcome
  refine ⟨hwords, hlabels, hindex, fun failure hfirst => ?_⟩
  obtain ⟨failure', hsecond, hmoved⟩ := hfailures failure hfirst
  refine ⟨failure', hsecond, hmoved, ?_⟩
  rintro diagnostic rfl
  cases failure' with
  | program diagnostic' =>
      obtain ⟨hcause, -⟩ := Diagnostic.mk.inj (Failure.program.inj hmoved)
      obtain ⟨hdescription, hhint⟩ := Cause.hint_of_relocate _ hcause
      refine ⟨diagnostic', rfl, hdescription, hhint.imp_right ?_⟩
      rintro ⟨label, place, place', hplace, hfirst, hsecond⟩
      have hfile : place.file = place'.file := (Location.mk.inj hplace).1
      exact ⟨label, place, place', hfile, hfirst, hsecond⟩
  | _ => cases hmoved

/-- A label that is defined twice, in one line and in two: the hints differ, the descriptions do
not. -/
theorem assemble_relaid_duplicate :
    let assembler := new .empty "utf-8" "<input>"
    let twice := Encoding.Utf8.encode ['a', ':', ' ', 'b', ':', ' ', 'b', ':']
    let lines := Encoding.Utf8.encode ['a', ':', '\n', 'b', ':', ' ', 'b', ':']
    Relaid isBreakByte twice lines ∧
      (assembler.assemble (.bytes twice) none).result = .error (.program
        ⟨.duplicateLabel ['b'] (some ⟨"<input>", 1, 4⟩), some ⟨"<input>", 1, 7⟩⟩) ∧
      ∃ failure, (assembler.assemble (.bytes lines) none).result = .error failure ∧
        (failure.relocate Location.unplaced) = .program
          ⟨.duplicateLabel ['b'] (some ⟨"<input>", 0, 0⟩), some ⟨"<input>", 0, 0⟩⟩ := by
  intro assembler twice lines
  have hname : Encoding.ofName? assembler.encoding = some .utf8 := by decide +kernel
  have hrelaid : Relaid isBreakByte twice lines := by decide +kernel
  have htwice : (assembler.assemble (.bytes twice) none).result = .error (.program
      ⟨.duplicateLabel ['b'] (some ⟨"<input>", 1, 4⟩), some ⟨"<input>", 1, 7⟩⟩) := by
    decide +kernel
  obtain ⟨-, -, -, hfails⟩ := assemble_relaid assembler hname hrelaid none
  obtain ⟨failure, hfailure, hmoved, -⟩ := hfails _ htwice
  exact ⟨hrelaid, htwice, failure, hfailure, hmoved.symm⟩

end Assembler

end StackAssembler

import StackAssembler.Proofs.Program.Run
import StackAssembler.Proofs.Source.Words

/-!
# Programs that go on

A program in UTF-8 may go on after a space or a newline.  What comes before the break is assembled
as it is alone: if it fails then, all of it fails in the same way, whatever follows, and if it does
not then its words and its labels come first in whatever the whole gives.

Only a failure to which the end of the input belongs is an exception, since a character that the
end cuts off may go on.
-/

namespace StackAssembler

open Encoding

/-- The failure is about a word, or about a byte that is there: a failure to decode is at an offset
before the end of the bytes. -/
def Failure.Within (failure : Failure) (bytes : List UInt8) : Prop :=
  ∀ encoding offset flaw location,
    failure = .program ⟨.malformed encoding offset flaw, location⟩ → offset < bytes.length

theorem exists_break {c : UInt8} (h : c = 0x20 ∨ c = 0x0a) :
    ∃ d, isBreak d = true ∧ [c] = Utf8.encode [d] := by
  rcases h with rfl | rfl
  · exact ⟨' ', rfl, by decide⟩
  · exact ⟨'\n', rfl, by decide⟩

namespace Assembler

variable {assembler : Assembler} {start : List UInt8} {c : UInt8} {file : String}

/-- An outcome is determined by the words that are read and by how reading them ends. -/
theorem outcome_congr {bytes other : List UInt8}
    (hi : (Source.tokens file assembler.encoding bytes).items =
      (Source.tokens file assembler.encoding other).items)
    (hf : (Source.tokens file assembler.encoding bytes).failure? =
      (Source.tokens file assembler.encoding other).failure?) :
    assembler.outcome bytes file = assembler.outcome other file := by
  rw [outcome, outcome, Scope.outcome, Scope.outcome, hi, hf]

/-- What fails in words that come first fails. -/
theorem outcome_of_prefix_error {bytes : List UInt8} {tokens : List Token} {failure : Failure}
    (h : (Scope.start assembler.predefined).run tokens = .error failure)
    (hp : tokens <+: (Source.tokens file assembler.encoding bytes).items) :
    assembler.outcome bytes file = .error failure := by
  obtain ⟨more, hm⟩ := hp
  exact Scope.outcome_of_error (hm ▸ Scope.run_append_of_error h more)

/-- **The first failure wins.** -/
theorem outcome_extension_of_error (henc : assembler.encoding = "utf-8")
    (hc : c = 0x20 ∨ c = 0x0a) (rest : List UInt8) {failure : Failure}
    (h : assembler.outcome start file = .error failure) (hw : failure.Within start) :
    assembler.outcome (start ++ c :: rest) file = .error failure := by
  obtain ⟨text, tail, rfl, rfl | ⟨k, flaw, hk⟩⟩ := Utf8.form_reads.exists_text start
  -- The bytes are a text, and the break ends its last word as their end does.
  · obtain ⟨d, hd, he⟩ := exists_break hc
    rw [List.append_nil] at h ⊢
    obtain ⟨hi, hf⟩ := Source.tokens_encode Utf8.ofName?_eq file text
    rw [← Utf8.encode, outcome, henc, Scope.outcome_of_none hf, hi] at h
    refine outcome_of_prefix_error h ?_
    rw [henc, ← Utf8.encode, ← List.singleton_append, he]
    exact Source.items_tokens_encode_break Utf8.ofName?_eq file text hd rest
  · obtain ⟨hi, hf⟩ := Source.tokens_encode_breaks Utf8.ofName?_eq file text hk
    rw [← Utf8.encode] at h hw ⊢
    by_cases hlt : k < tail.length
    -- The code breaks at a byte, and it does so again.
    · obtain ⟨hi', hf'⟩ :=
        Source.tokens_encode_breaks Utf8.ofName?_eq file text (hk.append hlt (c :: rest))
      rw [List.append_assoc, ← h]
      exact outcome_congr (by rw [henc, hi, hi']) (by rw [henc, hf, hf'])
    -- The code breaks at the end, but the failure is not that: it is about a word before.
    · cases hr : (Scope.start assembler.predefined).run (Cutting.first.completed file text) with
      | error other =>
          have ho : assembler.outcome (Utf8.encode text ++ tail) file = .error other :=
            outcome_of_prefix_error hr (by simp only [henc, hi, List.prefix_rfl])
          rw [ho] at h
          cases h
          refine outcome_of_prefix_error hr ?_
          rw [henc, List.append_assoc]
          exact Source.items_tokens_encode_append Utf8.ofName?_eq file text _
      | ok result =>
          rw [outcome, henc, Scope.outcome_of_failure (hi ▸ hr) hf] at h
          have hoff := hw _ _ _ _ (Except.error.inj h).symm
          rw [List.length_append] at hoff
          omega

/-- **What has been assembled stays**, if the whole can be assembled. -/
theorem outcome_extension_of_ok (henc : assembler.encoding = "utf-8")
    (hc : c = 0x20 ∨ c = 0x0a) (rest : List UInt8) {words all : List Int} {scope later : Scope}
    (h : assembler.outcome start file = .ok (words, scope))
    (hall : assembler.outcome (start ++ c :: rest) file = .ok (all, later)) :
    ∃ more text new, all = words ++ more ∧ rest = Utf8.encode text ∧
      more.length = (wordsOf text).length ∧
      later.labels.entries = scope.labels.entries ++ new ∧
      ∀ entry ∈ new, (words.length : Int) < entry.2 := by
  obtain ⟨d, hd, he⟩ := exists_break hc
  obtain ⟨hrun, hf⟩ := (Scope.outcome_eq_ok_iff ..).1 h
  obtain ⟨hrunall, hfall⟩ := (Scope.outcome_eq_ok_iff ..).1 hall
  rw [henc] at hf hfall hrun hrunall
  obtain ⟨text, rfl⟩ : ∃ text, start = Utf8.encode text :=
    Source.exists_text_of_tokens Utf8.ofName?_eq [] hf
  have hsplit : Utf8.encode text ++ c :: rest = Utf8.encode (text ++ [d]) ++ rest := by
    rw [← List.singleton_append, he]
    simp only [Utf8.encode, List.flatMap_append, List.append_assoc]
  rw [hsplit] at hfall hrunall
  obtain ⟨more, rfl⟩ := Source.exists_text_of_tokens Utf8.ofName?_eq _ hfall
  have hwhole : Utf8.encode (text ++ [d]) ++ Utf8.encode more =
      Utf8.encode (text ++ d :: more) := by
    simp only [Utf8.encode, List.flatMap_append, List.append_assoc, List.flatMap_cons,
      List.flatMap_nil, List.append_nil]
  rw [(Source.tokens_encode Utf8.ofName?_eq file text).1] at hrun
  rw [hwhole, (Source.tokens_encode Utf8.ofName?_eq file _).1, tokensOf,
    Cutting.tokens_append_break file _ text hd] at hrunall
  obtain ⟨new, hnew, rfl⟩ := Scope.exists_run_of_append hrun hrunall
  obtain ⟨hlen, hindex, -⟩ := Scope.run_grows hrun
  obtain ⟨hlen', -, entries, hentries, haddress⟩ := Scope.run_grows hnew
  refine ⟨new, more, entries, rfl, rfl, ?_, hentries, fun entry hm => ?_⟩
  · rw [hlen', ← Cutting.texts_tokens file (Cutting.word_next hd _) more, List.length_map]
  · have hfirst : (Scope.start assembler.predefined).index = 1 := rfl
    have hle := haddress entry hm
    omega

/-- **A program goes on from what it has given.**  If the beginning of a program, up to a break,
fails at one of its words or its bytes, then the program fails in the same way, whatever follows the
break.  If the beginning does not fail then the program fails, or its words are those of the
beginning and one for every word that follows, and its labels are those of the beginning and then
others, at later words. -/
theorem assemble_extension (assembler : Assembler) (start rest : List UInt8) (c : UInt8)
    (hc : c = 0x20 ∨ c = 0x0a) (name : Option String) :
    let assembler := { assembler with encoding := "utf-8" }
    let short := assembler.assemble (.bytes start) name
    let long := assembler.assemble (.bytes (start ++ c :: rest)) name
    (∀ words, short.result = .ok words → (∃ failure, long.result = .error failure) ∨
      ∃ more text new, long.result = .ok (words ++ more) ∧ rest = Utf8.encode text ∧
        more.length = (wordsOf text).length ∧
        long.assembler.labels.entries = short.assembler.labels.entries ++ new ∧
        ∀ entry ∈ new, (words.length : Int) < entry.2) ∧
    (∀ failure, short.result = .error failure → failure.Within start →
      long.result = .error failure) := by
  intro assembler short long
  cases ho : assembler.outcome start (name.getD assembler.file) with
  | error failure =>
      have hshort : short.result = .error failure := (assembleBytes_of_error ho).1
      rw [hshort]
      refine ⟨nofun, fun other he hw => ?_⟩
      cases he
      exact (assembleBytes_of_error (outcome_extension_of_error rfl hc rest ho hw)).1
  | ok result =>
      obtain ⟨hshort, hlabels⟩ : short.result = .ok result.1 ∧
        short.assembler = { assembler with scope := result.2 } := assembleBytes_of_ok ho
      rw [hshort, hlabels]
      refine ⟨fun words he => ?_, nofun⟩
      cases he
      cases hl : assembler.outcome (start ++ c :: rest) (name.getD assembler.file) with
      | error failure => exact .inl ⟨failure, (assembleBytes_of_error hl).1⟩
      | ok all =>
          obtain ⟨hlong, hall⟩ : long.result = .ok all.1 ∧
            long.assembler = { assembler with scope := all.2 } := assembleBytes_of_ok hl
          obtain ⟨more, text, new, hw, hr, hlen, hentries, hnew⟩ :=
            outcome_extension_of_ok rfl hc rest ho hl
          rw [hlong, hall]
          exact .inr ⟨more, text, new, congrArg _ hw, hr, hlen, hentries, hnew⟩

/-- A word of no shape is reported, though a byte after the break is in no text. -/
theorem assemble_extension_unrecognized :
    ((new .empty "utf-8" "<input>").assemble (.bytes [0x3f, 0x0a, 0xff]) none).result =
      .error (.program ⟨.unrecognized ['?'], some ⟨"<input>", 1, 1⟩⟩) :=
  (assemble_extension (new .empty "utf-8" "<input>") [0x3f] [0xff] 0x0a (.inr rfl) none).2 _
    (by decide +kernel) nofun

end Assembler

end StackAssembler

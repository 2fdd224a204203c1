import StackAssembler.Proofs.Program.Meaning
import StackAssembler.Proofs.Program.Refusal
import StackAssembler.Proofs.Source.Positions

/-!
# What a diagnostic points at

A program is refused for its first word that offends, which is said here without an assembler, or
for bytes that are no text.  The diagnostic has the place where the word starts, or the place after
the last character, and if a label is defined again it has the place of the first definition too.

The invariant of the pass is `Scope.Remembers`: besides its labels the scope has the places of the
words that define them.

## Main definitions

* `Offends`: what is wrong with a word of a program.
* `FirstOffends`: the first word of a program that offends.
* `Blames`: what a diagnostic about a program in UTF-8 points at.
-/

namespace StackAssembler

/-! ## Offences -/

/-- What is wrong with a word of a program, when some labels are predefined and some words come
before it, each at its place. -/
inductive Offends (predefined : LabelTable) (place : Nat → Location) (before : List (List Char))
    (word : List Char) : Cause → Prop
  /-- The word is of no kind. -/
  | unrecognized : (∀ kind : Kind, ¬ kind.Describes word) →
      Offends predefined place before word (.unrecognized word)
  /-- There is no word between two breaks, or at an end of the text. -/
  | empty : word = [] → Offends predefined place before word (.badLiteral [] .empty)
  /-- The word is a literal of too large a value. -/
  | outOfRange : (∀ c ∈ word, c.isDigit = true) → 2 ^ 31 - 1 < literalValue word →
      Offends predefined place before word (.badLiteral word .outOfRange)
  /-- The word defines a label that is predefined. -/
  | predefined {name : LabelName} : IsName name → word = name ++ [':'] → name ∈ predefined.names →
      Offends predefined place before word (.duplicateLabel name none)
  /-- The word defines a label that one word before it has defined. -/
  | redefined {name : LabelName} {j : Nat} : IsName name → word = name ++ [':'] →
      name ∉ predefined.names → (∀ k, before[k]? = some word ↔ k = j) →
      Offends predefined place before word (.duplicateLabel name (some (place j)))
  /-- The word refers to a label that is not predefined, and that no word before it defines. -/
  | undefined {name : LabelName} : IsName name → word = '&' :: name → name ∉ predefined.names →
      name ++ [':'] ∉ before →
      Offends predefined place before word (.undefinedLabel name
        (((predefined.names ++ (definitions before).map Prod.fst).filter
          (Scope.isSimilar name)).take 3))

/-- The word of number `i`, counted from zero, is the first one that offends. -/
structure FirstOffends (predefined : LabelTable) (place : Nat → Location)
    (words : List (List Char)) (i : Nat) (cause : Cause) : Prop where
  offends : ∃ word, words[i]? = some word ∧
    Offends predefined place (words.take i) word cause
  first : ∀ j < i, ∀ word, words[j]? = some word →
    ∀ other, ¬ Offends predefined place (words.take j) word other

/-- What a diagnostic points at, when the bytes of a program are a text and then a rest, which is
nothing or begins with no character. -/
inductive Blames (predefined : LabelTable) (file : String) (text : List Char)
    (rest : List UInt8) : Diagnostic → Prop
  /-- The first word that offends is blamed, at the place where it starts.  The last word is not
  complete if the bytes go on. -/
  | word {i : Nat} {cause : Cause} :
      FirstOffends predefined (wordLocation file text) (wordsOf text) i cause →
      (rest ≠ [] → i + 1 < (wordsOf text).length) →
      Blames predefined file text rest ⟨cause, some (wordLocation file text i)⟩
  /-- If all complete words mean something then the rest is blamed, at the place after the text. -/
  | rest {offset : Nat} {flaw : Encoding.Flaw} : rest ≠ [] →
      (∃ values, Translates predefined (wordsOf text).dropLast values) →
      Blames predefined file text rest
        ⟨.malformed Assembler.defaultEncoding offset flaw, some (.ofPosition file (.after text))⟩

/-! ## The invariant of the pass -/

namespace Scope

/-- The places of the words that define labels, the last of them first. -/
def originsOf (tokens : List Token) : List (LabelName × Location) :=
  (tokens.filterMap fun token =>
    (definedName? token.text).map fun name => (name, token.location)).reverse

theorem mem_originsOf_iff (tokens : List Token) (name : LabelName) (location : Location) :
    (name, location) ∈ originsOf tokens ↔ IsName name ∧ ⟨name ++ [':'], location⟩ ∈ tokens := by
  simp only [originsOf, List.mem_reverse, List.mem_filterMap, Option.map_eq_some_iff,
    Prod.mk.injEq, definedName?_eq_some_iff]
  constructor
  · rintro ⟨⟨word, _⟩, hm, other, ⟨hn, rfl⟩, rfl, rfl⟩
    exact ⟨hn, hm⟩
  · rintro ⟨hn, hm⟩
    exact ⟨_, hm, name, ⟨hn, rfl⟩, rfl, rfl⟩

/-- What holds of the scope after some tokens of a program: it follows their words, and has the
places of those that define labels. -/
structure Remembers (predefined : LabelTable) (before : List Token) (scope : Scope) : Prop
    extends Follows predefined (before.map Token.text) scope where
  origins : scope.origins = originsOf before

theorem remembers_start (predefined : LabelTable) :
    Remembers predefined [] (start predefined.wrapped) :=
  ⟨follows_start predefined, rfl⟩

variable {predefined : LabelTable} {scope later : Scope} {name : LabelName}

namespace Follows

variable {before : List (List Char)}

/-- The labels are the predefined ones and then those that the words define. -/
theorem names (h : Follows predefined before scope) :
    scope.labels.names = predefined.names ++ (definitions before).map Prod.fst := by
  rw [LabelTable.names, h.entries, List.map_append, ← LabelTable.names, LabelTable.names_wrapped]

/-- A label that a word defines is not predefined, and no other word defines it. -/
theorem unique_of_defined (h : Follows predefined before scope) (hn : IsName name) {j : Nat}
    (hj : before[j]? = some (name ++ [':'])) :
    name ∉ predefined.names ∧ ∀ k, before[k]? = some (name ++ [':']) ↔ k = j := by
  have hdefined : ∀ k : Nat, before[k]? = some (name ++ [':']) →
      scope.labels.get? name = some ((k : Int) + 1) :=
    fun k hk => (h.get?_eq_some_iff hn _).2 (.inr ⟨k, hk, rfl⟩)
  constructor
  · intro hp
    have hnodup : scope.labels.names.Nodup := scope.labels.nodup
    rw [h.names, List.nodup_append] at hnodup
    have hm : (name, (j : Int) + 1) ∈ definitions before :=
      (mem_definitions_iff ..).2 ⟨hn, j, hj, rfl⟩
    exact hnodup.2.2 name hp name (List.mem_map_of_mem hm) rfl
  · intro k
    constructor
    · intro hk
      have heq := (hdefined k hk).symm.trans (hdefined j hj)
      have haddress := Option.some.inj heq
      omega
    · rintro rfl
      exact hj

/-- A word that offends is not taken. -/
theorem not_step_of_offends {token : Token} (h : Follows predefined before scope)
    {place : Nat → Location} {cause : Cause}
    (ho : Offends predefined place before token.text cause) (result : Int × Scope) :
    scope.step token ≠ .ok result := by
  cases ho with
  | unrecognized hk =>
      rw [step_of_unrecognized ((Kind.ofWord?_eq_none_iff _).2 hk)]
      nofun
  | empty ht =>
      rw [step_of_empty ht]
      nofun
  | outOfRange hd hvalue =>
      have hne : token.text ≠ [] := by
        intro ht
        rw [ht] at hvalue
        cases hvalue
      rw [step_of_digits hne hd, if_neg (Nat.not_le.2 hvalue)]
      split <;> nofun
  | predefined hn ht hp =>
      rw [step_of_definition hn ht, if_pos ((h.mem_names_iff hn).2 (.inl hp))]
      nofun
  | @redefined name j hn ht _ hj =>
      have hm : name ++ [':'] ∈ before := ht ▸ List.mem_of_getElem? ((hj j).2 rfl)
      rw [step_of_definition hn ht, if_pos ((h.mem_names_iff hn).2 (.inr hm))]
      nofun
  | undefined hn ht hp hb =>
      have hnone := LabelTable.get?_eq_none fun hm => ((h.mem_names_iff hn).1 hm).elim hp hb
      simp [step_of_reference hn ht, hnone]

end Follows

namespace Remembers

variable {before : List Token} {token : Token} {location : Location} {word : List Char}
variable {value : Int}

/-- **A word that is taken keeps the invariant.** -/
theorem advance (h : Remembers predefined before scope)
    (ht : scope.Takes token.location token.text value later) :
    Remembers predefined (before ++ [token]) later.advance := by
  have hfollows := h.toFollows.advance ht
  refine ⟨by simpa using hfollows, ?_⟩
  rw [Scope.advance, (Follows.added_of_takes ht).2.2, h.origins, originsOf, originsOf,
    List.filterMap_append, List.reverse_append]
  cases hd : definedName? token.text <;> simp [hd]

/-- **A run keeps the invariant.** -/
theorem run (h : Remembers predefined before scope) {tokens : List Token} {values : List Int}
    (hr : scope.run tokens = .ok (values, later)) :
    Remembers predefined (before ++ tokens) later :=
  run_induction (fun _ _ _ _ _ h ht => h.advance ht) h hr

/-- A place is remembered of a label only if a word there defines it. -/
theorem mem_of_lookup_eq_some (h : Remembers predefined before scope)
    (hl : scope.origins.lookup name = some location) : ⟨name ++ [':'], location⟩ ∈ before := by
  obtain ⟨front, back, heq, -⟩ := List.lookup_eq_some_iff.1 hl
  have hm : (name, location) ∈ originsOf before := by
    rw [← h.origins, heq]
    exact List.mem_append_right front List.mem_cons_self
  exact ((mem_originsOf_iff ..).1 hm).2

/-- So none is remembered of a predefined label. -/
theorem lookup_eq_none (h : Remembers predefined before scope) (hn : IsName name)
    (hp : name ∈ predefined.names) : scope.origins.lookup name = none := by
  by_contra hsome
  obtain ⟨location, hl⟩ := Option.ne_none_iff_exists'.1 hsome
  obtain ⟨j, hj⟩ := List.mem_iff_getElem?.1 (h.mem_of_lookup_eq_some hl)
  have hword : (before.map Token.text)[j]? = some (name ++ [':']) := by
    rw [List.getElem?_map, hj]
    rfl
  exact (h.unique_of_defined hn hword).1 hp

/-- If none is then no word defines it. -/
theorem notMem_of_lookup_eq_none (h : Remembers predefined before scope) (hn : IsName name)
    (hl : scope.origins.lookup name = none) : name ++ [':'] ∉ before.map Token.text := by
  intro hm
  obtain ⟨⟨_, location⟩, htoken, rfl⟩ := List.mem_map.1 hm
  have horigin : (name, location) ∈ scope.origins :=
    h.origins ▸ (mem_originsOf_iff ..).2 ⟨hn, htoken⟩
  have hne := List.lookup_eq_none_iff.1 hl _ horigin
  simp at hne

/-- **What a scope refuses offends**, if it is a matter of the program. -/
theorem offends_of_refuses (h : Remembers predefined before scope) {place : Nat → Location}
    (hplace : ∀ (k : Nat) token, before[k]? = some token → token.location = place k)
    {diagnostic : Diagnostic} (hr : scope.Refuses location word (.program diagnostic)) :
    Offends predefined place (before.map Token.text) word diagnostic.cause ∧
      diagnostic.location = some location := by
  cases hr with
  | unrecognized hk => exact ⟨.unrecognized ((Kind.ofWord?_eq_none_iff word).1 hk), rfl⟩
  | empty => exact ⟨.empty rfl, rfl⟩
  | outOfRange hd _ hvalue => exact ⟨.outOfRange hd hvalue, rfl⟩
  | @duplicate name hn hm =>
      refine ⟨?_, rfl⟩
      cases hl : scope.origins.lookup name with
      | none =>
          have hnew := h.notMem_of_lookup_eq_none hn hl
          exact .predefined hn rfl (((h.mem_names_iff hn).1 hm).resolve_right hnew)
      | some origin =>
          obtain ⟨j, hj⟩ := List.mem_iff_getElem?.1 (h.mem_of_lookup_eq_some hl)
          have hword : (before.map Token.text)[j]? = some (name ++ [':']) := by
            rw [List.getElem?_map, hj]
            rfl
          obtain ⟨hp, hunique⟩ := h.unique_of_defined hn hword
          have horigin : origin = place j := hplace j _ hj
          rw [horigin]
          exact .redefined hn rfl hp hunique
  | @undefined name hn hm =>
      rw [h.mem_names_iff hn, not_or] at hm
      rw [similar, h.names]
      exact ⟨.undefined hn rfl hm.1 hm.2, rfl⟩

end Remembers

end Scope

/-! ## Programs -/

namespace Scope

variable {predefined : LabelTable} {file : String} {text : List Char}

/-- Scopes that are reached in a text remember what stands before. -/
theorem remembers_of_run {k : Nat} {values : List Int} {later : Scope}
    (h : (start predefined.wrapped).run ((tokensOf file text).take k) = .ok (values, later)) :
    Remembers predefined ((tokensOf file text).take k) later ∧
      ((tokensOf file text).take k).map Token.text = (wordsOf text).take k :=
  ⟨(remembers_start predefined).run h, by rw [List.map_take, texts_tokensOf]⟩

/-- **A run over a text fails at the first word that offends**, and the failure has its place. -/
theorem firstOffends_of_failsAt {i : Nat} {diagnostic : Diagnostic}
    (h : (start predefined.wrapped).FailsAt (tokensOf file text) i (.program diagnostic)) :
    FirstOffends predefined (wordLocation file text) (wordsOf text) i diagnostic.cause ∧
      diagnostic.location = some (wordLocation file text i) := by
  obtain ⟨token, values, later, htoken, hrun, hstep⟩ := h
  obtain ⟨hremembers, htexts⟩ := remembers_of_run hrun
  have hplace : ∀ (k : Nat) token, ((tokensOf file text).take i)[k]? = some token →
      token.location = wordLocation file text k := by
    intro k token hk
    rw [List.getElem?_take] at hk
    split at hk
    · rw [getElem?_tokensOf, Option.map_eq_some_iff] at hk
      obtain ⟨word, -, rfl⟩ := hk
      rfl
    · cases hk
  have hoffends := hremembers.offends_of_refuses hplace ((step_eq_error_iff ..).1 hstep)
  rw [htexts] at hoffends
  rw [getElem?_tokensOf, Option.map_eq_some_iff] at htoken
  obtain ⟨word, hword, rfl⟩ := htoken
  refine ⟨⟨⟨word, hword, hoffends.1⟩, fun j hj earlier hearlier other ho => ?_⟩, hoffends.2⟩
  -- The words before it have been taken.
  have htaken : ((tokensOf file text).take i)[j]? = some ⟨earlier, wordLocation file text j⟩ := by
    rw [List.getElem?_take_of_lt hj, getElem?_tokensOf, hearlier]
    rfl
  obtain ⟨_, reached, hreached, result, hresult, -⟩ := exists_step_of_run hrun htaken
  rw [List.take_take, Nat.min_eq_left (Nat.le_of_lt hj)] at hreached
  obtain ⟨hremembers, htexts⟩ := remembers_of_run hreached
  rw [← htexts] at ho
  exact hremembers.not_step_of_offends ho result hresult

/-- So the failure of a run is blamed on that word. -/
theorem blames_of_failsAt {i : Nat} {diagnostic : Diagnostic} {rest : List UInt8}
    (h : (start predefined.wrapped).FailsAt (tokensOf file text) i (.program diagnostic))
    (hcomplete : rest ≠ [] → i + 1 < (wordsOf text).length) :
    Blames predefined file text rest diagnostic := by
  obtain ⟨hfirst, hlocation⟩ := firstOffends_of_failsAt h
  obtain ⟨cause, location⟩ := diagnostic
  cases hlocation
  exact .word hfirst hcomplete

/-- It is so as well if only the words are run that are complete. -/
theorem blames_of_failsAt_completed {i : Nat} {diagnostic : Diagnostic} {rest : List UInt8}
    (h : (start predefined.wrapped).FailsAt (Cutting.first.completed file text) i
      (.program diagnostic)) : Blames predefined file text rest diagnostic := by
  refine blames_of_failsAt (h.append _) fun _ => ?_
  have hlt := h.lt_length
  rw [← length_tokensOf file, tokensOf, Cutting.tokens, List.length_append, List.length_singleton]
  omega

/-- A run over the complete words translates them. -/
theorem translates_of_completed {values : List Int} {later : Scope}
    (h : (start predefined.wrapped).run (Cutting.first.completed file text) = .ok (values, later)) :
    Translates predefined (wordsOf text).dropLast values := by
  rw [← texts_tokensOf file, ← List.map_dropLast, tokensOf, Cutting.tokens, List.dropLast_concat]
  exact ((follows_start predefined).exists_run_iff _).1 ⟨later, h⟩

end Scope

theorem Blames.file {predefined : LabelTable} {file : String} {text : List Char}
    {rest : List UInt8} {diagnostic : Diagnostic}
    (h : Blames predefined file text rest diagnostic) :
    diagnostic.location.map Location.file = some file := by
  cases h <;> rfl

namespace Assembler

open Encoding

/-- **A diagnostic points at its cause.**  The bytes of a program are a text, which is the longest
that they begin with, and a rest.  A program that is refused has a word that offends, and is refused
for the first one, at the place where that word starts; or all its words mean something up to bytes
that are no character, and it is refused for these, at the place after the text.  The place carries
the name of the text. -/
theorem assemble_blames (predefined : LabelTable) (file : String) (scope : Scope)
    (bytes : List UInt8) (name : Option String) (diagnostic : Diagnostic)
    (h : ({ new predefined defaultEncoding file with scope }.assemble (.bytes bytes) name).result =
      .error (.program diagnostic)) :
    ∃ text rest, bytes = Utf8.encode text ++ rest ∧
      (∀ more, Utf8.encode more <+: bytes → more <+: text) ∧
      Blames predefined (name.getD file) text rest diagnostic ∧
      diagnostic.location.map Location.file = some (name.getD file) := by
  have ho := (result_eq_error_iff _).1 h
  simp only [new_eq, defaultEncoding] at ho
  rw [outcome, Scope.outcome_eq_error_iff] at ho
  obtain ⟨text, rest, hbytes, hrest⟩ := Utf8.form_reads.exists_text bytes
  rw [← Utf8.encode] at hbytes
  subst hbytes
  suffices hblames : (∀ more, Utf8.encode more <+: Utf8.encode text ++ rest → more <+: text) ∧
      Blames predefined (name.getD file) text rest diagnostic from
    ⟨text, rest, rfl, hblames.1, hblames.2, hblames.2.file⟩
  rcases hrest with rfl | ⟨k, flaw, hbreaks⟩
  · obtain ⟨hitems, hread⟩ := Source.tokens_encode Utf8.ofName?_eq (name.getD file) text
    rw [List.append_nil] at ho ⊢
    rw [hitems, hread] at ho
    refine ⟨fun more => Utf8.form_reads.prefix_of_whole, ?_⟩
    rcases ho with hrun | ⟨-, hnone⟩
    · obtain ⟨i, hfails⟩ := (Scope.run_eq_error_iff ..).1 hrun
      exact Scope.blames_of_failsAt hfails fun hne => absurd rfl hne
    · cases hnone
  · obtain ⟨hitems, hread⟩ :=
      Source.tokens_encode_breaks Utf8.ofName?_eq (name.getD file) text hbreaks
    rw [hitems, hread, Cutting.reached_after] at ho
    refine ⟨fun more => Utf8.form_reads.prefix_of_breaks hbreaks, ?_⟩
    rcases ho with hrun | ⟨⟨⟨values, later⟩, hrun⟩, hflaw⟩
    · obtain ⟨i, hfails⟩ := (Scope.run_eq_error_iff ..).1 hrun
      exact Scope.blames_of_failsAt_completed hfails
    · cases hflaw
      exact .rest hbreaks.ne_nil ⟨values, Scope.translates_of_completed hrun⟩

/-- A label is defined again, and a byte that is no text comes later: the second definition is
blamed, and the place of the first one is known. -/
theorem assemble_blames_redefined :
    let bytes := Utf8.encode ['x', ':', '\n', 'a', 'd', 'd', ' ', 'x', ':', ' '] ++ [0xff]
    let diagnostic : Diagnostic :=
      ⟨.duplicateLabel ['x'] (some ⟨"a.sm", 1, 1⟩), some ⟨"a.sm", 2, 5⟩⟩
    ({ new .empty defaultEncoding "<input>" with scope := .empty }.assemble (.bytes bytes)
        (some "a.sm")).result = .error (.program diagnostic) ∧
      ∃ text rest, bytes = Utf8.encode text ++ rest ∧
        Blames .empty "a.sm" text rest diagnostic := by
  intro bytes diagnostic
  have hresult : ({ new .empty defaultEncoding "<input>" with scope := .empty }.assemble
      (.bytes bytes) (some "a.sm")).result = .error (.program diagnostic) := by
    decide +kernel
  obtain ⟨text, rest, hbytes, -, hblames, -⟩ :=
    assemble_blames .empty "<input>" .empty bytes (some "a.sm") diagnostic hresult
  exact ⟨hresult, text, rest, hbytes, hblames⟩

end Assembler

end StackAssembler

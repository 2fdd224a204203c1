import StackAssembler.Proofs.Program.Labels
import StackAssembler.Proofs.Program.Shape

/-!
# Runs of words

A program is assembled word by word, and `Scope.step` is what one word does to a scope.  `Takes`
says what the words are that a scope takes, and what comes of each; a run takes words until one of
them fails.  What an assembler gives for a program is determined by the run of the program's words
from the scope in which programs start, and by how reading the words ends.

## Main definitions

* `Scope.Takes`: a scope takes a word for a word of the machine.
* `Scope.step`, `Scope.run`: one word, and words one after the other.
* `Scope.outcome`: what comes of words that are read.
-/

namespace StackAssembler

/-- The number that a literal denotes. -/
def literalValue (word : List Char) : Nat := Nat.ofDigitChars 10 word 0

/-- One to 4300 digits that denote a number below `2 ^ 31`. -/
structure IsLiteral (word : List Char) : Prop where
  ne_nil : word ≠ []
  isDigit : ∀ c ∈ word, c.isDigit = true
  length_le : word.length ≤ 4300
  value_le : literalValue word ≤ 2 ^ 31 - 1

namespace Scope

/-! ## One word -/

/-- The scope in which a name is defined at the current word. -/
def defineAt (scope : Scope) (name : LabelName) (location : Location) : Scope :=
  { scope with
    labels := scope.labels.insert name scope.index
    origins := (name, location) :: scope.origins }

/-- A scope takes a word at a place for a word of the machine, and goes on as another scope. -/
inductive Takes (scope : Scope) (location : Location) : List Char → Int → Scope → Prop
  /-- A literal stands for its value. -/
  | literal {word : List Char} : IsLiteral word →
      Takes scope location word (literalValue word) scope
  /-- An instruction stands for its opcode. -/
  | instruction {word : List Char} {op : Opcode} : Spells word op →
      Takes scope location word op.number scope
  /-- The definition of a new label stands for a `nop`. -/
  | definition {name : LabelName} : IsName name → name ∉ scope.labels.names →
      Takes scope location (name ++ [':']) 0 (scope.defineAt name location)
  /-- A reference stands for the address of the label. -/
  | reference {name : LabelName} {address : Int} : IsName name →
      scope.labels.get? name = some address → Takes scope location ('&' :: name) address scope

/-- What a token comes to in a scope. -/
def step (scope : Scope) (token : Token) : Except Failure (Int × Scope) :=
  Lexeme.ofToken token >>= scope.encode

variable {scope : Scope} {token : Token}

/-- A word of a known shape is encoded as its kind. -/
theorem step_of_fits {kind : Kind} (h : kind.fits token.text = true) :
    scope.step token = scope.encode ⟨token.text, kind, some token.location⟩ := by
  have hk := (Kind.ofWord?_eq_some_iff token.text kind).2 h
  rw [step, Lexeme.ofToken, Kind.ofWord, hk]
  rfl

/-- A word of no shape is reported. -/
theorem step_of_unrecognized (h : Kind.ofWord? token.text = none) :
    scope.step token = .error (.program ⟨.unrecognized token.text, some token.location⟩) := by
  rw [step, Lexeme.ofToken, Kind.ofWord, h]
  rfl

theorem step_of_spells {op : Opcode} (h : Spells token.text op) :
    scope.step token = .ok (op.number, scope) := by
  have hf : Kind.instruction.fits token.text = true := (Kind.isInstruction_iff _).2 ⟨op, h⟩
  rw [step_of_fits hf, encode, encodeInstruction, (ofMnemonic?_eq_some_iff _ _).2 h]
  rfl

theorem step_of_definition {name : LabelName} (hn : IsName name)
    (h : token.text = name ++ [':']) :
    scope.step token =
      if name ∈ scope.labels.names then
        .error (.program ⟨.duplicateLabel name (scope.origins.lookup name), some token.location⟩)
      else .ok (0, scope.defineAt name token.location) := by
  have hf : Kind.labelDefinition.fits token.text = true :=
    (Kind.isLabelDefinition_iff _).2 ⟨name, hn, h⟩
  rw [step_of_fits hf, encode, h]
  simp only [define, List.dropLast_concat, LabelTable.contains_iff]
  split <;> rfl

theorem step_of_reference {name : LabelName} (hn : IsName name) (h : token.text = '&' :: name) :
    scope.step token =
      match scope.labels.get? name with
      | some address => .ok (address, scope)
      | none =>
        .error (.program ⟨.undefinedLabel name (scope.similar name), some token.location⟩) := by
  have hf : Kind.labelReference.fits token.text = true :=
    (Kind.isLabelReference_iff _).2 ⟨name, hn, h⟩
  rw [step_of_fits hf, encode, h]
  simp only [resolve, List.tail_cons]
  cases scope.labels.get? name <;> rfl

/-- Digits are encoded as their number, unless they are too many or the number is too large. -/
theorem encodeInteger_of_digits {word : List Char} (hne : word ≠ [])
    (hd : ∀ c ∈ word, c.isDigit = true) (location : Option Location) :
    encodeInteger word location =
      if 4300 < word.length then .error (.internal (.tooManyDigits word.length))
      else if literalValue word ≤ 2 ^ 31 - 1 then .ok (literalValue word)
      else .error (.program ⟨.badLiteral word .outOfRange, location⟩) := by
  have hall : word.all Char.isDigit = true := List.all_eq_true.2 hd
  rw [encodeInteger, if_neg hne, if_neg (by simp [hall]), Text.digitLimit, literalValue]
  split
  · rfl
  generalize Nat.ofDigitChars 10 word 0 = value
  by_cases hv : value ≤ 2 ^ 31 - 1
  · have hmax : ¬ Word.maxLiteral < (value : Int) := by
      rw [Word.maxLiteral]
      omega
    have hfits : Word.Fits value := by
      rw [Word.Fits, Word.max]
      omega
    rw [if_neg hmax, if_pos hv, Word.wrap_of_fits hfits]
  · have hmax : Word.maxLiteral < (value : Int) := by
      rw [Word.maxLiteral]
      omega
    rw [if_pos hmax, if_neg hv]

/-- Nothing is the word between two breaks that follow each other. -/
theorem step_of_empty (h : token.text = []) :
    scope.step token = .error (.program ⟨.badLiteral [] .empty, some token.location⟩) := by
  have hf : Kind.integer.fits token.text = true := (Kind.isInteger_iff _).2 (by simp [h])
  rw [step_of_fits hf, encode, h]
  rfl

theorem step_of_digits (hne : token.text ≠ []) (hd : ∀ c ∈ token.text, c.isDigit = true) :
    scope.step token =
      if 4300 < token.text.length then .error (.internal (.tooManyDigits token.text.length))
      else if literalValue token.text ≤ 2 ^ 31 - 1 then .ok (literalValue token.text, scope)
      else .error (.program ⟨.badLiteral token.text .outOfRange, some token.location⟩) := by
  have hf : Kind.integer.fits token.text = true := (Kind.isInteger_iff _).2 hd
  rw [step_of_fits hf, encode, encodeInteger_of_digits hne hd]
  split_ifs <;> rfl

/-- **A step succeeds on the words that the scope takes, and on no others.** -/
theorem step_eq_ok_iff (scope : Scope) (token : Token) (word : Int) (later : Scope) :
    scope.step token = .ok (word, later) ↔ scope.Takes token.location token.text word later := by
  constructor
  · intro h
    cases Shape.of token.text with
    | empty ht =>
        rw [step_of_empty ht] at h
        cases h
    | digits hne hd =>
        rw [step_of_digits hne hd] at h
        split_ifs at h with hlen hv
        cases h
        exact .literal ⟨hne, hd, Nat.not_lt.1 hlen, hv⟩
    | mnemonic hs =>
        rw [step_of_spells hs] at h
        cases h
        exact .instruction hs
    | definition hn ht =>
        rw [step_of_definition hn ht] at h
        split_ifs at h with hnew
        cases h
        rw [ht]
        exact .definition hn hnew
    | reference hn ht =>
        rw [step_of_reference hn ht] at h
        split at h
        · next hget =>
            cases h
            rw [ht]
            exact .reference hn hget
        · cases h
    | unrecognized hk =>
        rw [step_of_unrecognized hk] at h
        cases h
  · intro h
    generalize ht : token.text = text at h
    cases h with
    | literal hl =>
        subst ht
        rw [step_of_digits hl.ne_nil hl.isDigit, if_neg (Nat.not_lt.2 hl.length_le),
          if_pos hl.value_le]
    | instruction hs => exact step_of_spells (ht ▸ hs)
    | definition hn hnew => rw [step_of_definition hn ht, if_neg hnew]
    | reference hn hget => simp only [step_of_reference hn ht, hget]

/-- **A word only adds to a scope.**  The labels there stay, in order and with their addresses, and
a new one is put at the current word. -/
theorem Takes.grows {scope later : Scope} {location : Location} {text : List Char} {word : Int}
    (h : scope.Takes location text word later) :
    later.index = scope.index ∧ ∃ new, later.labels.entries = scope.labels.entries ++ new ∧
      ∀ entry ∈ new, entry.2 = scope.index := by
  cases h with
  | literal | instruction | reference => exact ⟨rfl, [], by simp⟩
  | @definition name hn hnew =>
      refine ⟨rfl, [(name, scope.index)], LabelTable.entries_insert_of_notMem _ hnew, ?_⟩
      simp

/-! ## Words one after the other -/

/-- What tokens come to, one after the other, until one of them fails. -/
def run (scope : Scope) : List Token → Except Failure (List Int × Scope)
  | [] => .ok ([], scope)
  | token :: rest =>
    match scope.step token with
    | .error failure => .error failure
    | .ok (word, scope) => (run scope.advance rest).map fun result => (word :: result.1, result.2)

@[simp] theorem run_nil (scope : Scope) : scope.run [] = .ok ([], scope) := rfl

theorem run_cons_of_ok {scope later : Scope} {token : Token} {word : Int}
    (h : scope.step token = .ok (word, later)) (rest : List Token) :
    scope.run (token :: rest) =
      (later.advance.run rest).map fun result => (word :: result.1, result.2) := by
  simp only [run, h]

theorem run_cons_of_error {scope : Scope} {token : Token} {failure : Failure}
    (h : scope.step token = .error failure) (rest : List Token) :
    scope.run (token :: rest) = .error failure := by
  simp only [run, h]

/-- A run that succeeds is a step and a run. -/
theorem run_cons_eq_ok_iff (scope : Scope) (token : Token) (rest : List Token) (words : List Int)
    (later : Scope) :
    scope.run (token :: rest) = .ok (words, later) ↔ ∃ word next more,
      scope.step token = .ok (word, next) ∧ next.advance.run rest = .ok (more, later) ∧
      words = word :: more := by
  cases hs : scope.step token with
  | error failure => simp [run_cons_of_error hs]
  | ok result =>
      obtain ⟨word, next⟩ := result
      rw [run_cons_of_ok hs]
      cases hr : next.advance.run rest with
      | error failure => simp [Except.map, hr]
      | ok result =>
          obtain ⟨more, last⟩ := result
          simp [Except.map, hr, and_comm, eq_comm]

/-- A run fails where its beginning fails. -/
theorem run_append_of_error {scope : Scope} {tokens : List Token} {failure : Failure}
    (h : scope.run tokens = .error failure) (more : List Token) :
    scope.run (tokens ++ more) = .error failure := by
  induction tokens generalizing scope with
  | nil => cases h
  | cons token rest ih =>
      rw [List.cons_append]
      cases hs : scope.step token with
      | error other =>
          rw [run_cons_of_error hs] at h ⊢
          exact h
      | ok result =>
          rw [run_cons_of_ok hs] at h ⊢
          cases hr : result.2.advance.run rest with
          | error other =>
              rw [hr] at h
              cases h
              rw [ih hr]
              rfl
          | ok result => simp [hr, Except.map] at h

/-- A run goes on from where its beginning has got. -/
theorem run_append_of_ok {scope later : Scope} {tokens : List Token} {words : List Int}
    (h : scope.run tokens = .ok (words, later)) (more : List Token) :
    scope.run (tokens ++ more) =
      (later.run more).map fun result => (words ++ result.1, result.2) := by
  induction tokens generalizing scope words with
  | nil =>
      cases h
      cases hr : later.run more <;> simp [hr, Except.map]
  | cons token rest ih =>
      obtain ⟨word, next, more', hs, hr, rfl⟩ := (run_cons_eq_ok_iff ..).1 h
      rw [List.cons_append, run_cons_of_ok hs, ih hr]
      cases later.run more <;> rfl

/-- A run that succeeds is a run of its beginning and a run of what follows. -/
theorem exists_run_of_append {scope later last : Scope} {tokens more : List Token}
    {words all : List Int} (h : scope.run tokens = .ok (words, later))
    (hall : scope.run (tokens ++ more) = .ok (all, last)) :
    ∃ new, later.run more = .ok (new, last) ∧ all = words ++ new := by
  rw [run_append_of_ok h] at hall
  cases hm : later.run more with
  | error failure => simp [hm, Except.map] at hall
  | ok result =>
      rw [hm] at hall
      cases hall
      exact ⟨result.1, rfl, rfl⟩

/-- The tokens before the one of number `i`, counted from zero, are taken, and that one fails. -/
def FailsAt (scope : Scope) (tokens : List Token) (i : Nat) (failure : Failure) : Prop :=
  ∃ token words later, tokens[i]? = some token ∧
    scope.run (tokens.take i) = .ok (words, later) ∧ later.step token = .error failure

theorem FailsAt.lt_length {scope : Scope} {tokens : List Token} {i : Nat} {failure : Failure}
    (h : scope.FailsAt tokens i failure) : i < tokens.length := by
  obtain ⟨token, _, _, htoken, -, -⟩ := h
  exact (List.getElem?_eq_some_iff.1 htoken).1

/-- A run fails at the same token whatever follows. -/
theorem FailsAt.append {scope : Scope} {tokens : List Token} {i : Nat} {failure : Failure}
    (h : scope.FailsAt tokens i failure) (more : List Token) :
    scope.FailsAt (tokens ++ more) i failure := by
  have hi := h.lt_length
  obtain ⟨token, words, later, htoken, hrun, hstep⟩ := h
  refine ⟨token, words, later, ?_, ?_, hstep⟩
  · rwa [List.getElem?_append_left hi]
  · rwa [List.take_append_of_le_length (Nat.le_of_lt hi)]

theorem failsAt_cons_zero_iff (scope : Scope) (token : Token) (rest : List Token)
    (failure : Failure) :
    scope.FailsAt (token :: rest) 0 failure ↔ scope.step token = .error failure := by
  constructor
  · rintro ⟨found, words, later, hfound, hrun, hstep⟩
    cases hfound
    cases hrun
    exact hstep
  · exact fun h => ⟨token, [], scope, rfl, rfl, h⟩

/-- A run fails at a later token if the first one is taken and the rest fails there. -/
theorem failsAt_cons_succ_iff (scope : Scope) (token : Token) (rest : List Token) (i : Nat)
    (failure : Failure) :
    scope.FailsAt (token :: rest) (i + 1) failure ↔ ∃ word later,
      scope.step token = .ok (word, later) ∧ later.advance.FailsAt rest i failure := by
  constructor
  · rintro ⟨found, words, last, hfound, hrun, hstep⟩
    rw [List.take_succ_cons, run_cons_eq_ok_iff] at hrun
    obtain ⟨word, next, more, hs, hrest, rfl⟩ := hrun
    exact ⟨word, next, hs, found, more, last, hfound, hrest, hstep⟩
  · rintro ⟨word, next, hs, found, more, last, hfound, hrest, hstep⟩
    refine ⟨found, word :: more, last, hfound, ?_, hstep⟩
    rw [List.take_succ_cons, run_cons_of_ok hs, hrest]
    rfl

/-- A run fails at one token only, and in one way. -/
theorem FailsAt.unique {scope : Scope} {tokens : List Token} {i j : Nat}
    {failure other : Failure} (h : scope.FailsAt tokens i failure)
    (h' : scope.FailsAt tokens j other) : i = j ∧ failure = other := by
  induction tokens generalizing scope i j with
  | nil => exact absurd h.lt_length (Nat.not_lt_zero i)
  | cons token rest ih =>
      cases i with
      | zero =>
          rw [failsAt_cons_zero_iff] at h
          cases j with
          | zero =>
              rw [failsAt_cons_zero_iff, h] at h'
              cases h'
              exact ⟨rfl, rfl⟩
          | succ j =>
              obtain ⟨_, _, hs, -⟩ := (failsAt_cons_succ_iff ..).1 h'
              rw [h] at hs
              cases hs
      | succ i =>
          obtain ⟨word, later, hs, hrest⟩ := (failsAt_cons_succ_iff ..).1 h
          cases j with
          | zero =>
              rw [failsAt_cons_zero_iff, hs] at h'
              cases h'
          | succ j =>
              obtain ⟨_, _, hs', hrest'⟩ := (failsAt_cons_succ_iff ..).1 h'
              rw [hs] at hs'
              cases hs'
              obtain ⟨rfl, rfl⟩ := ih hrest hrest'
              exact ⟨rfl, rfl⟩

/-- **A run that fails does so at one of its tokens.** -/
theorem run_eq_error_iff (scope : Scope) (tokens : List Token) (failure : Failure) :
    scope.run tokens = .error failure ↔ ∃ i, scope.FailsAt tokens i failure := by
  constructor
  · intro h
    induction tokens generalizing scope with
    | nil => cases h
    | cons token rest ih =>
        cases hs : scope.step token with
        | error other =>
            rw [run_cons_of_error hs] at h
            cases h
            exact ⟨0, (failsAt_cons_zero_iff ..).2 hs⟩
        | ok result =>
            obtain ⟨word, next⟩ := result
            rw [run_cons_of_ok hs] at h
            cases hr : next.advance.run rest with
            | ok result => simp [hr, Except.map] at h
            | error other =>
                simp only [hr, Except.map, Except.error.injEq] at h
                subst h
                obtain ⟨i, hfails⟩ := ih next.advance hr
                exact ⟨i + 1, (failsAt_cons_succ_iff ..).2 ⟨word, next, hs, hfails⟩⟩
  · rintro ⟨i, token, words, later, htoken, hrun, hstep⟩
    obtain ⟨hi, rfl⟩ := List.getElem?_eq_some_iff.1 htoken
    rw [← List.take_append_drop i tokens, List.drop_eq_getElem_cons hi, run_append_of_ok hrun,
      run_cons_of_error hstep]
    rfl

/-- **A run has a word for every token and only adds to the scope.**  The index counts the words,
and the labels that are new have addresses between the index before and the index after. -/
theorem run_grows {scope later : Scope} {tokens : List Token} {words : List Int}
    (h : scope.run tokens = .ok (words, later)) :
    words.length = tokens.length ∧ later.index = scope.index + tokens.length ∧
      ∃ new, later.labels.entries = scope.labels.entries ++ new ∧
        ∀ entry ∈ new, (scope.index : Int) ≤ entry.2 := by
  induction tokens generalizing scope words with
  | nil =>
      cases h
      exact ⟨rfl, rfl, [], by simp⟩
  | cons token rest ih =>
      obtain ⟨word, next, more, hs, hr, rfl⟩ := (run_cons_eq_ok_iff ..).1 h
      obtain ⟨hi, new, he, hnew⟩ := ((step_eq_ok_iff ..).1 hs).grows
      obtain ⟨hlen, hi', new', he', hnew'⟩ := ih hr
      have hadv : next.advance.index = scope.index + 1 := by rw [advance, hi]
      refine ⟨by rw [List.length_cons, List.length_cons, hlen], ?_, new ++ new', ?_, ?_⟩
      · rw [hi', hadv, List.length_cons]
        omega
      · rw [he', advance, he, List.append_assoc]
      · intro entry hm
        rcases List.mem_append.1 hm with hm | hm
        · exact Int.le_of_eq (hnew entry hm).symm
        · have hle := hnew' entry hm
          rw [hadv] at hle
          omega

/-- **What every word that is taken keeps, a run keeps.**  It may be about the tokens so far and the
scope that they have led to. -/
theorem run_induction {holds : List Token → Scope → Prop}
    (hstep : ∀ before scope later (token : Token) word, holds before scope →
      scope.Takes token.location token.text word later → holds (before ++ [token]) later.advance)
    {before tokens : List Token} {scope later : Scope} {words : List Int}
    (h : holds before scope) (hr : scope.run tokens = .ok (words, later)) :
    holds (before ++ tokens) later := by
  induction tokens generalizing before scope words with
  | nil =>
      cases hr
      rwa [List.append_nil]
  | cons token rest ih =>
      obtain ⟨word, next, more, hs, hrest, rfl⟩ := (run_cons_eq_ok_iff ..).1 hr
      have hnext := hstep before scope next token word h ((step_eq_ok_iff ..).1 hs)
      rw [List.append_cons]
      exact ih hnext hrest

/-- In a run that succeeds every token is taken, by the scope that those before it lead to, and
gives the word of its number. -/
theorem exists_step_of_run {scope last : Scope} {tokens : List Token} {words : List Int}
    (h : scope.run tokens = .ok (words, last)) {i : Nat} {token : Token}
    (hi : tokens[i]? = some token) : ∃ values next, scope.run (tokens.take i) = .ok (values, next) ∧
      ∃ result, next.step token = .ok result ∧ words[i]? = some result.1 := by
  induction tokens generalizing scope words i with
  | nil => simp at hi
  | cons first rest ih =>
      obtain ⟨word, next, more, hs, hrest, rfl⟩ := (run_cons_eq_ok_iff ..).1 h
      cases i with
      | zero =>
          cases hi
          exact ⟨[], scope, rfl, _, hs, rfl⟩
      | succ i =>
          obtain ⟨values, later, hrun, hresult⟩ := ih hrest hi
          refine ⟨word :: values, later, ?_, hresult⟩
          rw [List.take_succ_cons, run_cons_of_ok hs, hrun]
          rfl

/-! ## Words that are read -/

/-- What comes of words that are read: the words of the machine and the scope reached. -/
def outcome (scope : Scope) (reading : Reading Token) : Except Failure (List Int × Scope) :=
  match scope.run reading.items, reading.failure? with
  | .error failure, _ => .error failure
  | .ok _, some failure => .error failure
  | .ok result, none => .ok result

theorem outcome_of_error {scope : Scope} {reading : Reading Token} {failure : Failure}
    (h : scope.run reading.items = .error failure) : scope.outcome reading = .error failure := by
  rw [outcome, h]

theorem outcome_of_failure {scope : Scope} {reading : Reading Token} {failure : Failure}
    {result : List Int × Scope} (h : scope.run reading.items = .ok result)
    (hf : reading.failure? = some failure) : scope.outcome reading = .error failure := by
  rw [outcome, h, hf]

/-- Words that are read to the end come to their run. -/
theorem outcome_of_none {scope : Scope} {reading : Reading Token} (h : reading.failure? = none) :
    scope.outcome reading = scope.run reading.items := by
  rw [outcome, h]
  cases scope.run reading.items <;> rfl

/-- Only words that are read to the end, and all taken, come to anything. -/
theorem outcome_eq_ok_iff (scope : Scope) (reading : Reading Token) (result : List Int × Scope) :
    scope.outcome reading = .ok result ↔
      scope.run reading.items = .ok result ∧ reading.failure? = none := by
  rw [outcome]
  cases scope.run reading.items <;> cases reading.failure? <;> simp

/-- What goes wrong is a word, or if all words are taken the reading. -/
theorem outcome_eq_error_iff (scope : Scope) (reading : Reading Token) (failure : Failure) :
    scope.outcome reading = .error failure ↔ scope.run reading.items = .error failure ∨
      (∃ result, scope.run reading.items = .ok result) ∧ reading.failure? = some failure := by
  rw [outcome]
  cases scope.run reading.items <;> cases reading.failure? <;> simp

/-- The outcome of a reading that begins with a token the scope takes. -/
theorem outcome_next_of_ok {scope later : Scope} {token : Token} {word : Int}
    (h : scope.step token = .ok (word, later)) (k : Nat) (rest : Reading Token) :
    scope.outcome (.next token k rest) =
      (later.advance.outcome rest).map fun result => (word :: result.1, result.2) := by
  simp only [outcome, Reading.items, Reading.failure?, run_cons_of_ok h]
  cases later.advance.run rest.items <;> cases rest.failure? <;> rfl

theorem outcome_next_of_error {scope : Scope} {token : Token} {failure : Failure}
    (h : scope.step token = .error failure) (k : Nat) (rest : Reading Token) :
    scope.outcome (.next token k rest) = .error failure := by
  rw [outcome, Reading.items, run_cons_of_error h]

theorem assemble_next_of_ok {scope later : Scope} {token : Token} {word : Int}
    (h : scope.step token = .ok (word, later)) (k : Nat) (rest : Reading Token) :
    scope.assemble (.next token k rest) =
      { later.advance.assemble rest with
        words := word :: (later.advance.assemble rest).words } := by
  rw [step] at h
  simp only [assemble, h]

theorem assemble_next_of_error {scope : Scope} {token : Token} {failure : Failure}
    (h : scope.step token = .error failure) (k : Nat) (rest : Reading Token) :
    scope.assemble (.next token k rest) = ⟨[], scope, some failure, k⟩ := by
  rw [step] at h
  simp only [assemble, h]

/-- What fails in the outcome fails in assembling. -/
theorem assemble_of_outcome_error {scope : Scope} {reading : Reading Token} {failure : Failure}
    (h : scope.outcome reading = .error failure) :
    (scope.assemble reading).failure = some failure := by
  induction reading generalizing scope with
  | done k => cases h
  | stopped other k =>
      cases h
      rfl
  | next token k rest ih =>
      cases hs : scope.step token with
      | error other =>
          rw [outcome_next_of_error hs] at h
          cases h
          rw [assemble_next_of_error hs]
      | ok result =>
          rw [outcome_next_of_ok hs] at h
          rw [assemble_next_of_ok hs]
          cases ho : result.2.advance.outcome rest with
          | error other =>
              rw [ho] at h
              cases h
              exact ih ho
          | ok result => simp [ho, Except.map] at h

/-- The words and the scope of the outcome are those of assembling. -/
theorem assemble_of_outcome_ok {scope later : Scope} {reading : Reading Token} {words : List Int}
    (h : scope.outcome reading = .ok (words, later)) :
    (scope.assemble reading).failure = none ∧ (scope.assemble reading).words = words ∧
      (scope.assemble reading).scope = later := by
  induction reading generalizing scope words with
  | done k =>
      cases h
      exact ⟨rfl, rfl, rfl⟩
  | stopped other k => cases h
  | next token k rest ih =>
      cases hs : scope.step token with
      | error other =>
          rw [outcome_next_of_error hs] at h
          cases h
      | ok result =>
          rw [outcome_next_of_ok hs] at h
          rw [assemble_next_of_ok hs]
          cases ho : result.2.advance.outcome rest with
          | error other => simp [ho, Except.map] at h
          | ok result =>
              rw [ho] at h
              cases h
              obtain ⟨hf, hw, hl⟩ := ih ho
              exact ⟨hf, by rw [hw], hl⟩

end Scope

namespace Assembler

/-- What a program in bytes comes to for an assembler. -/
def outcome (assembler : Assembler) (bytes : List UInt8) (file : String) :
    Except Failure (List Int × Scope) :=
  (Scope.start assembler.predefined).outcome (Source.tokens file assembler.encoding bytes)

variable {assembler : Assembler} {bytes : List UInt8} {file : String}

/-- A program that fails leaves nothing defined. -/
theorem assembleBytes_of_error {failure : Failure}
    (h : assembler.outcome bytes file = .error failure) :
    (assembler.assembleBytes bytes file).result = .error failure ∧
      (assembler.assembleBytes bytes file).assembler = { assembler with scope := .empty } := by
  have hf := Scope.assemble_of_outcome_error h
  simp only [assembleBytes, hf, failed, and_self]

/-- A program that does not fail gives its words, and leaves what it has defined. -/
theorem assembleBytes_of_ok {words : List Int} {scope : Scope}
    (h : assembler.outcome bytes file = .ok (words, scope)) :
    (assembler.assembleBytes bytes file).result = .ok words ∧
      (assembler.assembleBytes bytes file).assembler = { assembler with scope := scope } := by
  obtain ⟨hf, hw, hs⟩ := Scope.assemble_of_outcome_ok h
  simp only [assembleBytes, hf, hw, hs, and_self]

/-- The result of a program is that of its outcome. -/
theorem result_assembleBytes :
    (assembler.assembleBytes bytes file).result =
      (assembler.outcome bytes file).map Prod.fst := by
  cases h : assembler.outcome bytes file with
  | error failure => exact (assembleBytes_of_error h).1
  | ok result => exact (assembleBytes_of_ok h).1

theorem result_eq_error_iff (failure : Failure) :
    (assembler.assembleBytes bytes file).result = .error failure ↔
      assembler.outcome bytes file = .error failure := by
  rw [result_assembleBytes]
  cases assembler.outcome bytes file <;> simp [Except.map]

theorem result_eq_ok_iff (words : List Int) :
    (assembler.assembleBytes bytes file).result = .ok words ↔
      ∃ scope, assembler.outcome bytes file = .ok (words, scope) := by
  rw [result_assembleBytes]
  cases assembler.outcome bytes file <;> simp [Except.map, Prod.ext_iff]

end Assembler

end StackAssembler

import Mathlib.Data.List.Nodup
import StackAssembler.Proofs.Program.Meaning
import StackAssembler.Proofs.Program.Text

/-!
# Renaming labels

The names of labels are only names.  If other names are put in their places, different ones for
different ones, in the program and among the predefined labels, then the program comes to the same
words, and to the same labels under their new names; or it fails at the same word with a failure of
the same kind.  A name may become the spelling of an instruction, for a label has its mark.

The scope goes along with the program: `Renaming.Renames` holds of the two scopes before every word.

## Main definitions

* `Renaming`: a map of names that keeps different names apart.
* `Renaming.word`, `Renaming.text`, `Renaming.table`: a word, a text and a table renamed.
* `Renaming.Renames`: one scope is another one renamed.
* `Failure.kind`: what kind of failure a failure is.
-/

namespace StackAssembler

/-! ## Kinds of failures -/

/-- The kinds of failures, whatever they are about. -/
inductive FailureKind
  /-- The input is not text, or a word of it has no known shape. -/
  | reading
  | mnemonic
  | literal
  | duplicate
  | undefined
  /-- Anything else that is wrong with a program. -/
  | program
  | setting
  | file
  /-- A defect of this name. -/
  | internal (name : String)
  deriving DecidableEq, Repr

/-- The kind of a cause. -/
def Cause.kind : Cause → FailureKind
  | .malformed .. | .surrogate .. | .unrecognized .. | .unreadable .. => .reading
  | .unknownMnemonic .. => .mnemonic
  | .badLiteral .. => .literal
  | .duplicateLabel .. => .duplicate
  | .undefinedLabel .. => .undefined
  | .stated .. => .program

/-- The kind of a failure. -/
def Failure.kind : Failure → FailureKind
  | .program diagnostic => diagnostic.cause.kind
  | .setting _ => .setting
  | .file _ => .file
  | .internal defect => .internal defect.name

/-! ## Names -/

/-- A map of names to names that keeps different names apart. -/
structure Renaming where
  /-- The new name of a name. -/
  rename : LabelName → LabelName
  isName : ∀ {name}, IsName name → IsName (rename name)
  injective : ∀ {name other}, IsName name → IsName other → rename name = rename other → name = other

instance : CoeFun Renaming fun _ => LabelName → LabelName := ⟨Renaming.rename⟩

/-- The label that a word refers to, if it is a reference. -/
def referredName? (word : List Char) : Option LabelName :=
  if word.head? = some '&' ∧ IsName word.tail then some word.tail else none

theorem referredName?_eq_some_iff (word : List Char) (name : LabelName) :
    referredName? word = some name ↔ IsName name ∧ word = '&' :: name := by
  rw [referredName?]
  constructor
  · intro h
    split at h
    · next hc =>
        obtain ⟨rest, rfl⟩ := List.head?_eq_some_iff.1 hc.1
        cases h
        exact ⟨hc.2, rfl⟩
    · cases h
  · rintro ⟨hn, rfl⟩
    exact if_pos ⟨rfl, hn⟩

/-- The words that refer to a label are those of the kind. -/
theorem isSome_referredName? (word : List Char) :
    (referredName? word).isSome = Kind.labelReference.fits word := by
  rw [Bool.eq_iff_iff, Option.isSome_iff_exists]
  simp only [referredName?_eq_some_iff]
  exact (Kind.isLabelReference_iff word).symm

namespace Renaming

/-- The renaming that puts letters in front of every name. -/
def prepend (front : LabelName) (h : front.all Kind.isLabelChar = true) : Renaming where
  rename name := front ++ name
  isName hn := ⟨List.append_ne_nil_of_right_ne_nil _ hn.1,
    List.forall_mem_append.2 ⟨(all_isLabelChar_iff front).1 h, hn.2⟩⟩
  injective _ _ := List.append_cancel_left

variable (r : Renaming)

/-! ## Words -/

/-- The word with its label renamed, if it defines one or refers to one. -/
def word (word : List Char) : List Char :=
  match definedName? word, referredName? word with
  | some name, _ => r name ++ [':']
  | none, some name => '&' :: r name
  | none, none => word

/-- The text with the label of every word renamed. -/
def text (text : List Char) : List Char := mapWords r.word text

theorem word_definition {name : LabelName} (h : IsName name) :
    r.word (name ++ [':']) = r name ++ [':'] := by
  rw [word, (definedName?_eq_some_iff _ name).2 ⟨h, rfl⟩]

theorem word_reference {name : LabelName} (h : IsName name) :
    r.word ('&' :: name) = '&' :: r name := by
  have hf : Kind.labelReference.fits ('&' :: name) = true :=
    (Kind.isLabelReference_iff _).2 ⟨name, h, rfl⟩
  rw [word, definedName?_eq_none hf (by decide), (referredName?_eq_some_iff _ name).2 ⟨h, rfl⟩]

/-- A word without a label stays. -/
theorem word_of_unlabelled {word : List Char} (hd : Kind.labelDefinition.fits word = false)
    (hr : Kind.labelReference.fits word = false) : r.word word = word := by
  rw [← isSome_definedName?, Option.isSome_eq_false_iff, Option.isNone_iff_eq_none] at hd
  rw [← isSome_referredName?, Option.isSome_eq_false_iff, Option.isNone_iff_eq_none] at hr
  rw [Renaming.word, hd, hr]

/-- A word of a kind without labels stays. -/
theorem word_of_fits {word : List Char} {kind : Kind} (h : kind.fits word = true)
    (hd : kind ≠ .labelDefinition) (hr : kind ≠ .labelReference) : r.word word = word :=
  r.word_of_unlabelled (Bool.eq_false_iff.2 fun hf => hd (Kind.eq_of_fits h hf))
    (Bool.eq_false_iff.2 fun hf => hr (Kind.eq_of_fits h hf))

theorem word_of_digits {word : List Char} (hd : ∀ c ∈ word, c.isDigit = true) :
    r.word word = word := by
  have hf : Kind.integer.fits word = true := (Kind.isInteger_iff word).2 hd
  exact r.word_of_fits hf (by decide) (by decide)

theorem word_of_spells {word : List Char} {op : Opcode} (hs : Spells word op) :
    r.word word = word := by
  have hf : Kind.instruction.fits word = true := (Kind.isInstruction_iff word).2 ⟨op, hs⟩
  exact r.word_of_fits hf (by decide) (by decide)

/-- A word of no kind stays. -/
theorem word_of_unrecognized {word : List Char} (h : Kind.ofWord? word = none) :
    r.word word = word := by
  have hall : ∀ kind : Kind, kind.fits word = false := by
    intro kind
    rw [Bool.eq_false_iff]
    intro hf
    rw [(Kind.ofWord?_eq_some_iff word kind).2 hf] at h
    cases h
  exact r.word_of_unlabelled (hall _) (hall _)

theorem unbroken_of_isName {name : LabelName} (h : IsName name) :
    ∀ c ∈ name, isBreak c = false := by
  intro c hc
  rw [Bool.eq_false_iff]
  simp only [isBreak, ne_eq, Bool.or_eq_true, beq_iff_eq]
  rintro (rfl | rfl)
  · exact h.not_mem (by decide) hc
  · exact h.not_mem (by decide) hc

/-- A word stays one word. -/
theorem unbroken_word {word : List Char} (h : ∀ c ∈ word, isBreak c = false) :
    ∀ c ∈ r.word word, isBreak c = false := by
  rw [Renaming.word]
  cases hd : definedName? word with
  | some name =>
      have hn := ((definedName?_eq_some_iff word name).1 hd).1
      exact List.forall_mem_append.2 ⟨unbroken_of_isName (r.isName hn),
        List.forall_mem_singleton.2 rfl⟩
  | none =>
      cases hr : referredName? word with
      | some name =>
          have hn := ((referredName?_eq_some_iff word name).1 hr).1
          exact List.forall_mem_cons.2 ⟨rfl, unbroken_of_isName (r.isName hn)⟩
      | none => exact h

theorem texts_tokensOf_text (file other : String) (text : List Char) :
    (tokensOf other (r.text text)).map Token.text =
      (tokensOf file text).map fun token => r.word token.text := by
  have htexts : (tokensOf file text).map (fun token => r.word token.text) =
      ((tokensOf file text).map Token.text).map r.word := by rw [List.map_map]; rfl
  rw [htexts, texts_tokensOf, texts_tokensOf, Renaming.text,
    wordsOf_mapWords fun word => r.unbroken_word]

/-! ## Tables -/

/-- The entry under its new name. -/
def entry (entry : LabelName × Int) : LabelName × Int := (r entry.1, entry.2)

/-- One table is another one, of names, renamed. -/
structure Tables (table other : LabelTable) : Prop where
  isName : ∀ name ∈ table.names, IsName name
  entries : other.entries = table.entries.map r.entry

/-- The table renamed. -/
def table (table : LabelTable) (h : ∀ name ∈ table.names, IsName name) : LabelTable where
  entries := table.entries.map r.entry
  nodup := by
    have hkeys : (table.entries.map r.entry).map Prod.fst = table.names.map r := by
      simp only [LabelTable.names, List.map_map]
      rfl
    rw [hkeys]
    exact List.Nodup.map_on (fun name hn other ho => r.injective (h name hn) (h other ho))
      table.nodup

theorem tables_wrapped (table : LabelTable) (h : ∀ name ∈ table.names, IsName name) :
    r.Tables table.wrapped (r.table table h).wrapped := by
  constructor
  · rwa [LabelTable.names_wrapped]
  · simp only [LabelTable.wrapped, Renaming.table, List.map_map]
    rfl

namespace Tables

variable {r : Renaming} {table other : LabelTable} {name : LabelName}

theorem get? (h : r.Tables table other) (hn : IsName name) :
    other.get? (r name) = table.get? name := by
  apply Option.ext
  intro address
  rw [LabelTable.get?_eq_some_iff, LabelTable.get?_eq_some_iff, h.entries, List.mem_map]
  constructor
  · rintro ⟨⟨found, a⟩, hm, he⟩
    obtain ⟨hname, rfl⟩ := Prod.mk.inj he
    have hfound : IsName found := h.isName found (List.mem_map_of_mem hm)
    rwa [← r.injective hfound hn hname]
  · exact fun hm => ⟨(name, address), hm, rfl⟩

theorem mem_names_iff (h : r.Tables table other) (hn : IsName name) :
    r name ∈ other.names ↔ name ∈ table.names := by
  rw [LabelTable.mem_names_iff, LabelTable.mem_names_iff, h.get? hn]

/-- A new label is entered into both. -/
theorem insert (h : r.Tables table other) (hn : IsName name) (hnew : name ∉ table.names)
    (address : Int) : r.Tables (table.insert name address) (other.insert (r name) address) := by
  have hnew' : r name ∉ other.names := fun hm => hnew ((h.mem_names_iff hn).1 hm)
  constructor
  · intro found hm
    rw [LabelTable.names_insert_of_notMem address hnew, List.mem_append, List.mem_singleton] at hm
    rcases hm with hm | rfl
    · exact h.isName found hm
    · exact hn
  · rw [LabelTable.entries_insert_of_notMem address hnew,
      LabelTable.entries_insert_of_notMem address hnew', h.entries, List.map_append]
    rfl

end Tables

/-! ## Runs -/

/-- One scope is another one renamed. -/
structure Renames (scope other : Scope) : Prop where
  labels : r.Tables scope.labels other.labels
  index : other.index = scope.index

/-- Two computations end alike: with the same value and with scopes of which one is the other one
renamed, or with failures of the same kind. -/
inductive Agrees {α : Type} : Except Failure (α × Scope) → Except Failure (α × Scope) → Prop
  | ok {value : α} {scope other : Scope} : r.Renames scope other →
      Agrees (.ok (value, scope)) (.ok (value, other))
  | error {failure other : Failure} : failure.kind = other.kind →
      Agrees (.error failure) (.error other)

namespace Renames

variable {r : Renaming} {scope other : Scope}

theorem start {predefined renamed : LabelTable} (h : r.Tables predefined renamed) :
    r.Renames (.start predefined) (.start renamed) :=
  ⟨h, rfl⟩

theorem advance (h : r.Renames scope other) : r.Renames scope.advance other.advance :=
  ⟨h.labels, congrArg (· + 1) h.index⟩

/-- **A renamed word does to the renamed scope what the word does to the scope.** -/
theorem step (h : r.Renames scope other) {token renamed : Token}
    (ht : renamed.text = r.word token.text) :
    r.Agrees (scope.step token) (other.step renamed) := by
  cases Shape.of token.text with
  | empty h0 =>
      rw [r.word_of_digits (by simp [h0]), h0] at ht
      rw [Scope.step_of_empty h0, Scope.step_of_empty ht]
      exact .error rfl
  | digits hne hd =>
      rw [r.word_of_digits hd] at ht
      rw [Scope.step_of_digits hne hd, Scope.step_of_digits (ht ▸ hne) (ht ▸ hd), ht]
      split_ifs
      · exact .error rfl
      · exact .ok h
      · exact .error rfl
  | mnemonic hs =>
      rw [r.word_of_spells hs] at ht
      rw [Scope.step_of_spells hs, Scope.step_of_spells (ht ▸ hs)]
      exact .ok h
  | @definition name hn hname =>
      rw [hname, r.word_definition hn] at ht
      rw [Scope.step_of_definition hn hname, Scope.step_of_definition (r.isName hn) ht]
      by_cases hm : name ∈ scope.labels.names
      · rw [if_pos hm, if_pos ((h.labels.mem_names_iff hn).2 hm)]
        exact .error rfl
      · rw [if_neg hm, if_neg fun hm' => hm ((h.labels.mem_names_iff hn).1 hm')]
        refine .ok ⟨?_, h.index⟩
        rw [Scope.defineAt, Scope.defineAt, h.index]
        exact h.labels.insert hn hm scope.index
  | @reference name hn hname =>
      rw [hname, r.word_reference hn] at ht
      rw [Scope.step_of_reference hn hname, Scope.step_of_reference (r.isName hn) ht,
        h.labels.get? hn]
      cases scope.labels.get? name with
      | none => exact .error rfl
      | some address => exact .ok h
  | unrecognized hk =>
      rw [r.word_of_unrecognized hk] at ht
      rw [Scope.step_of_unrecognized hk, Scope.step_of_unrecognized (ht ▸ hk)]
      exact .error rfl

/-- **Renamed words do to the renamed scope what the words do to the scope.** -/
theorem run (h : r.Renames scope other) {tokens renamed : List Token}
    (ht : renamed.map Token.text = tokens.map fun token => r.word token.text) :
    r.Agrees (scope.run tokens) (other.run renamed) := by
  induction tokens generalizing scope other renamed with
  | nil =>
      rw [List.map_nil, List.map_eq_nil_iff] at ht
      rw [ht]
      exact .ok h
  | cons token rest ih =>
      obtain ⟨token', rest', rfl, htoken, hrest⟩ := List.map_eq_cons_iff.1 ht
      have hstep := h.step htoken
      generalize hs : scope.step token = result at hstep
      generalize hs' : other.step token' = result' at hstep
      cases hstep with
      | error hkind =>
          rw [Scope.run_cons_of_error hs, Scope.run_cons_of_error hs']
          exact .error hkind
      | ok hlater =>
          have hruns := ih hlater.advance hrest
          rw [Scope.run_cons_of_ok hs, Scope.run_cons_of_ok hs']
          generalize Scope.run _ rest = ending at hruns ⊢
          generalize Scope.run _ rest' = ending' at hruns ⊢
          cases hruns with
          | error hkind => exact .error hkind
          | ok hlast => exact .ok hlast

/-- Where the words fail, the renamed words fail, and with a failure of the same kind. -/
theorem failsAt (h : r.Renames scope other) {tokens renamed : List Token}
    (ht : renamed.map Token.text = tokens.map fun token => r.word token.text) {i : Nat}
    {failure : Failure} (hfails : scope.FailsAt tokens i failure) :
    ∃ failure', other.FailsAt renamed i failure' ∧ failure.kind = failure'.kind := by
  obtain ⟨token, words, later, htoken, hrun, hstep⟩ := hfails
  obtain ⟨token', htoken', hword⟩ :
      ∃ token', renamed[i]? = some token' ∧ token'.text = r.word token.text := by
    have hi := congrArg (·[i]?) ht
    simpa [htoken] using hi
  have htake : (renamed.take i).map Token.text =
      (tokens.take i).map fun token => r.word token.text := by
    rw [List.map_take, ht, List.map_take]
  have hruns := h.run htake
  rw [hrun] at hruns
  generalize hrun' : other.run (renamed.take i) = result at hruns
  cases hruns with
  | ok hlater =>
      have hsteps := hlater.step hword
      rw [hstep] at hsteps
      generalize hstep' : Scope.step _ token' = result at hsteps
      cases hsteps with
      | error hkind => exact ⟨_, ⟨token', words, _, htoken', hrun', hstep'⟩, hkind⟩

end Renames

end Renaming

/-! ## Programs -/

namespace Assembler

variable {r : Renaming} {assembler renamed : Assembler} {source other : Source} {text : List Char}

/-- What a program and the program renamed come to, for two assemblers whose predefined labels are
renamed alike. -/
theorem assemble_agrees (h : r.Tables assembler.predefined renamed.predefined)
    (hsource : source.ReadsAs assembler.encoding text)
    (hother : other.ReadsAs renamed.encoding (r.text text)) (name : Option String) :
    let first := assembler.assemble source name
    let second := renamed.assemble other name
    (∀ words, first.result = .ok words ↔ second.result = .ok words) ∧
    (∀ words, first.result = .ok words →
      second.assembler.labels.entries = first.assembler.labels.entries.map r.entry) ∧
    ∀ failure, first.result = .error failure → ∃ i failure',
      second.result = .error failure' ∧ failure.kind = failure'.kind ∧
      (Scope.start assembler.predefined).FailsAt
        (tokensOf (name.getD assembler.file) text) i failure ∧
      (Scope.start renamed.predefined).FailsAt
        (tokensOf (name.getD renamed.file) (r.text text)) i failure' := by
  intro first second
  obtain ⟨bytes, hfirst, houtcome⟩ := outcome_of_readsAs hsource name
  obtain ⟨bytes', hsecond, houtcome'⟩ := outcome_of_readsAs hother name
  have hstart := Renaming.Renames.start h
  have htexts := r.texts_tokensOf_text (name.getD assembler.file) (name.getD renamed.file) text
  have hruns := hstart.run htexts
  simp only [first, second, hfirst, hsecond]
  generalize hrun : (Scope.start assembler.predefined).run _ = result at hruns
  generalize hrun' : (Scope.start renamed.predefined).run _ = result' at hruns
  cases hruns with
  | ok hlast =>
      obtain ⟨hwords, hassembler⟩ := assembleBytes_of_ok (houtcome.trans hrun)
      obtain ⟨hwords', hassembler'⟩ := assembleBytes_of_ok (houtcome'.trans hrun')
      rw [hwords, hwords', hassembler, hassembler']
      exact ⟨fun _ => .rfl, fun _ _ => hlast.labels.entries, fun _ hfails => nomatch hfails⟩
  | @error failure failure' =>
      obtain ⟨hresult, -⟩ := assembleBytes_of_error (houtcome.trans hrun)
      obtain ⟨hresult', -⟩ := assembleBytes_of_error (houtcome'.trans hrun')
      rw [hresult, hresult']
      refine ⟨fun _ => ⟨nofun, nofun⟩, nofun, ?_⟩
      rintro _ ⟨rfl⟩
      obtain ⟨i, hfails⟩ := (Scope.run_eq_error_iff _ _ _).1 hrun
      obtain ⟨other', hfails', hkind⟩ := hstart.failsAt htexts hfails
      obtain rfl : other' = failure' := by
        have herror := (Scope.run_eq_error_iff _ _ _).2 ⟨i, hfails'⟩
        exact Except.error.inj (herror.symm.trans hrun')
      exact ⟨i, other', rfl, hkind, hfails, hfails'⟩

/-- **A program with other names for its labels is the same program.**  It comes to the same words,
and to the same labels under their new names, or it fails at the same word with a failure of the
same kind. -/
theorem assemble_renamed (r : Renaming) (predefined : LabelTable)
    (hnames : ∀ name ∈ predefined.names, IsName name) (encoding file : String)
    (scope scope' : Scope) (text : List Char) (name : Option String) :
    let assembler := { new predefined encoding file with scope := scope }
    let renamed := { new (r.table predefined hnames) encoding file with scope := scope' }
    (Encoding.ofName? encoding = some .utf8 →
      (Source.text text).ReadsAs encoding text ∧
        (Source.text (r.text text)).ReadsAs encoding (r.text text)) ∧
    ∀ source other : Source, source.ReadsAs encoding text →
      other.ReadsAs encoding (r.text text) →
      let first := assembler.assemble source name
      let second := renamed.assemble other name
      (∀ words, first.result = .ok words ↔ second.result = .ok words) ∧
      (∀ words, first.result = .ok words →
        second.assembler.labels.entries = first.assembler.labels.entries.map r.entry) ∧
      ∀ failure, first.result = .error failure → ∃ i failure',
        second.result = .error failure' ∧ failure.kind = failure'.kind ∧
        (Scope.start assembler.predefined).FailsAt (tokensOf (name.getD file) text) i failure ∧
        (Scope.start renamed.predefined).FailsAt
          (tokensOf (name.getD file) (r.text text)) i failure' := by
  intro assembler renamed
  refine ⟨fun hname => ⟨(Source.readsAs_utf8 hname _).1, (Source.readsAs_utf8 hname _).1⟩, ?_⟩
  intro source other hsource hother
  have hassembler : assembler.predefined = predefined.wrapped ∧ assembler.encoding = encoding ∧
      assembler.file = file := by
    simp only [assembler, new_eq, and_self]
  have hrenamed : renamed.predefined = (r.table predefined hnames).wrapped ∧
      renamed.encoding = encoding ∧ renamed.file = file := by
    simp only [renamed, new_eq, and_self]
  obtain ⟨hpredefined, hencoding, hfile⟩ := hassembler
  obtain ⟨hpredefined', hencoding', hfile'⟩ := hrenamed
  have htables : r.Tables assembler.predefined renamed.predefined := by
    rw [hpredefined, hpredefined']
    exact r.tables_wrapped predefined hnames
  have hagrees := assemble_agrees htables (hencoding ▸ hsource) (hencoding' ▸ hother) name
  rwa [hfile, hfile'] at hagrees

/-- A label `p` that becomes a label `nop`: the word for it is still its address. -/
theorem assemble_renamed_mnemonic :
    let r := Renaming.prepend ['n', 'o'] rfl
    let predefined : LabelTable := ⟨[(['p'], 7)], List.nodup_singleton _⟩
    let renamed : LabelTable := ⟨[(['n', 'o', 'p'], 7)], List.nodup_singleton _⟩
    let text := ['a', ':', ' ', '&', 'p', '\n', 'n', 'o', 'p', ' ', '&', 'a']
    (∃ hnames, r.table predefined hnames = renamed) ∧
      r.text text = ['n', 'o', 'a', ':', ' ', '&', 'n', 'o', 'p', '\n', 'n', 'o', 'p', ' ',
        '&', 'n', 'o', 'a'] ∧
      ((new renamed "utf-8" "<input>").assemble (.text (r.text text)) none).result =
        .ok [0, 7, 0, 1] := by
  intro r predefined renamed text
  have hname : Encoding.ofName? "utf-8" = some .utf8 := by decide +kernel
  have isName_a : IsName ['a'] := ⟨List.cons_ne_nil _ _, (all_isLabelChar_iff ['a']).1 rfl⟩
  have isName_p : IsName ['p'] := ⟨List.cons_ne_nil _ _, (all_isLabelChar_iff ['p']).1 rfl⟩
  have hnames : ∀ name ∈ predefined.names, IsName name := List.forall_mem_singleton.2 isName_p
  have htext : r.text text = ['n', 'o', 'a', ':', ' ', '&', 'n', 'o', 'p', '\n', 'n', 'o', 'p', ' ',
      '&', 'n', 'o', 'a'] := by
    have hwords : wordsOf text = [['a'] ++ [':'], '&' :: ['p'], ['n', 'o', 'p'], '&' :: ['a']] := by
      decide +kernel
    have hspells : Spells ['n', 'o', 'p'] .nop := rfl
    rw [Renaming.text, mapWords, hwords, List.map_cons, List.map_cons, List.map_cons,
      List.map_cons, List.map_nil, r.word_definition isName_a, r.word_reference isName_p,
      r.word_of_spells hspells, r.word_reference isName_a]
    decide +kernel
  obtain ⟨hreads, hagrees⟩ := assemble_renamed r predefined hnames "utf-8" "<input>"
    .empty .empty text none
  obtain ⟨hsource, hother⟩ := hreads hname
  have hfirst : ((new predefined "utf-8" "<input>").assemble (.text text) none).result =
      .ok [0, 7, 0, 1] := by decide +kernel
  exact ⟨⟨hnames, rfl⟩, htext, ((hagrees _ _ hsource hother).1 [0, 7, 0, 1]).1 hfirst⟩

end Assembler

end StackAssembler

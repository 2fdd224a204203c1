import StackAssembler.Proofs.Program.History
import StackAssembler.Proofs.Program.Offences
import StackAssembler.Proofs.Text.Shown

/-!
# Messages of diagnostics

A program can have any characters in its words, and the message about a word that offends shows the
word.  It shows it between quotes, or else the word is the name of a label, which has small letters
and underscores only.  So if the names of the file and of the encoding can be shown then the message
is one line that begins with the place, or two of which the other is the hint, and nothing in a
program can make it look different.

## Main definitions

* `Cause.IsShowable`: what is said about a cause can be shown.
-/

namespace StackAssembler

open Text

/-! ## Parts of messages -/

/-- The name of a label can be shown. -/
theorem IsName.isShowable {name : LabelName} (h : IsName name) :
    IsShowable (String.ofList name) := by
  rw [isShowable_ofList_iff]
  intro c hc
  rcases h.2 c hc with ⟨hlow, hhigh⟩ | rfl
  · have hlow : 0x61 ≤ c.toNat := hlow
    have hhigh : c.toNat ≤ 0x7a := hhigh
    exact isPrintable_of_range (by omega) (by omega)
  · decide

theorem isShowable_reason (flaw : Encoding.Flaw) : IsShowable flaw.reason := by
  cases flaw <;> decide +kernel

namespace Location

theorem text_ofPosition (file : String) (place : Position) :
    (ofPosition file place).text =
      String.join [file, ":", toString place.line, ":", toString place.column] := rfl

theorem isShowable_text {file : String} (h : IsShowable file) (place : Position) :
    IsShowable (ofPosition file place).text := by
  rw [text_ofPosition]
  simp +decide [h]

end Location

/-! ## Causes -/

/-- What is said about a cause can be shown. -/
structure Cause.IsShowable (cause : Cause) : Prop where
  description : Text.IsShowable cause.description
  hint : ∀ hint, cause.hint = some hint → Text.IsShowable hint

namespace Cause

theorem isShowable_malformed {encoding : String} (h : Text.IsShowable encoding) (offset : Nat)
    (flaw : Encoding.Flaw) : (malformed encoding offset flaw).IsShowable where
  description := by simp +decide [description, h]
  hint := by
    rintro _ ⟨⟩
    simp +decide [isShowable_reason]

theorem isShowable_surrogate (codePoint offset : Nat) :
    (surrogate codePoint offset).IsShowable where
  description := by simp +decide [description]
  hint := by
    rintro _ ⟨⟩
    simp +decide [isShowable_hexUpper]

theorem isShowable_unrecognized (word : List Char) : (unrecognized word).IsShowable where
  description := by simp +decide [description, isShowable_quotedWord]
  hint := by
    rintro _ ⟨⟩
    decide +kernel

theorem isShowable_badLiteral (literal : List Char) {flaw : LiteralFlaw}
    (h : Text.IsShowable flaw.reason) : (badLiteral literal flaw).IsShowable where
  description := by simp +decide [description, isShowable_quotedWord, h]
  hint := by
    intro hint hhint
    cases literal with
    | nil =>
        cases hhint
        decide +kernel
    | cons => cases hhint

theorem isShowable_duplicateLabel {name : LabelName} (hn : IsName name) {first : Option Location}
    (h : ∀ location, first = some location → Text.IsShowable location.text) :
    (duplicateLabel name first).IsShowable where
  description := by simp +decide [description, hn.isShowable]
  hint := by
    intro hint hhint
    cases first with
    | none => cases hhint
    | some location =>
        cases hhint
        simp +decide [hn.isShowable, h location rfl]

theorem isShowable_undefinedLabel {name : LabelName} (hn : IsName name) {similar : List LabelName}
    (h : ∀ label ∈ similar, IsName label) : (undefinedLabel name similar).IsShowable where
  description := by simp +decide [description, hn.isShowable]
  hint := by
    intro hint hhint
    cases similar with
    | nil => cases hhint
    | cons first rest =>
        cases hhint
        have hsuggestions : Text.IsShowable (suggestions (first :: rest)) := by
          refine IsShowable.intercalate (by decide) fun part hpart => ?_
          obtain ⟨label, hlabel, rfl⟩ := List.mem_map.1 hpart
          have hname := h label (List.mem_of_mem_take hlabel)
          simp +decide [hname.isShowable]
        simp +decide [hsuggestions]

/-- **What is said about a word that offends can be shown**, whatever the word is. -/
theorem isShowable_of_offends {predefined : LabelTable} {file : String} {text word : List Char}
    {before : List (List Char)} {cause : Cause} (hfile : Text.IsShowable file)
    (hp : ∀ name ∈ predefined.names, IsName name)
    (ho : Offends predefined (wordLocation file text) before word cause) : cause.IsShowable := by
  cases ho with
  | unrecognized => exact isShowable_unrecognized word
  | empty => exact isShowable_badLiteral [] (by decide +kernel)
  | outOfRange => exact isShowable_badLiteral word (by decide +kernel)
  | predefined hn => exact isShowable_duplicateLabel hn (by rintro _ ⟨⟩)
  | redefined hn =>
      refine isShowable_duplicateLabel hn ?_
      rintro _ ⟨⟩
      exact Location.isShowable_text hfile _
  | undefined hn =>
      refine isShowable_undefinedLabel hn fun label hlabel => ?_
      have hvisible := List.mem_of_mem_filter (List.mem_of_mem_take hlabel)
      rcases List.mem_append.1 hvisible with hgiven | hdefined
      · exact hp label hgiven
      · obtain ⟨⟨_, _⟩, hdefinition, rfl⟩ := List.mem_map.1 hdefined
        exact ((mem_definitions_iff ..).1 hdefinition).1

end Cause

/-! ## Messages -/

namespace Diagnostic

variable {diagnostic : Diagnostic}

theorem headline_of_place {file : String} {place : Position}
    (h : diagnostic.location = some (.ofPosition file place)) :
    diagnostic.headline = String.join [file, ":", toString place.line, ":", toString place.column,
      ": error: ", diagnostic.cause.description] := by
  rw [headline, h]
  simp [Location.text_ofPosition, String.append_assoc]

/-- A hint is shown on a line of its own, and only if it says anything. -/
theorem message_cases (diagnostic : Diagnostic) :
    (∃ hint, diagnostic.cause.hint = some hint ∧ hint ≠ "" ∧
      diagnostic.message = String.join [diagnostic.headline, "\nhint: ", hint]) ∨
    (∀ hint, diagnostic.cause.hint = some hint → hint = "") ∧
      diagnostic.message = diagnostic.headline := by
  rw [message]
  cases hh : diagnostic.cause.hint with
  | none => exact .inr ⟨by rintro _ ⟨⟩, rfl⟩
  | some hint =>
      by_cases hempty : hint = ""
      · refine .inr ⟨?_, if_pos hempty⟩
        rintro _ ⟨⟩
        exact hempty
      · exact .inl ⟨hint, rfl, hempty, if_neg hempty⟩

theorem isShowable_headline {file : String} {place : Position} (hfile : IsShowable file)
    (hcause : diagnostic.cause.IsShowable)
    (h : diagnostic.location = some (.ofPosition file place)) :
    IsShowable diagnostic.headline := by
  rw [headline_of_place h]
  simp +decide [hfile, hcause.description]

/-- A newline is all that a message may have besides printable characters. -/
theorem isPrintable_of_mem_message (hheadline : IsShowable diagnostic.headline)
    (hcause : diagnostic.cause.IsShowable) {c : Char} (hc : c ∈ diagnostic.message.toList)
    (hnewline : c ≠ '\n') : isPrintable c = true := by
  rcases diagnostic.message_cases with ⟨hint, hhint, -, hmessage⟩ | ⟨-, hmessage⟩
  · rw [hmessage, String.toList_join, List.mem_flatMap] at hc
    obtain ⟨part, hpart, hc⟩ := hc
    simp only [List.mem_cons, List.not_mem_nil, or_false] at hpart
    rcases hpart with rfl | rfl | rfl
    · exact hheadline c hc
    · have hlabel : IsShowable "hint: " := by decide
      exact hlabel c ((List.mem_cons.1 hc).resolve_left hnewline)
    · exact hcause.hint _ hhint c hc
  · exact hheadline c (hmessage ▸ hc)

end Diagnostic

/-! ## Programs -/

namespace Assembler

variable {assembler : Assembler} {source : Source} {file? : Option String}
variable {diagnostic : Diagnostic}

/-- What is said about a program that is refused can be shown, and has a place in the file. -/
theorem isShowable_of_assemble {predefined : LabelTable}
    (hpredefined : assembler.predefined = predefined.wrapped)
    (hnames : ∀ name ∈ predefined.names, IsName name)
    (hfile : IsShowable (file?.getD assembler.file)) (hencoding : IsShowable assembler.encoding)
    (h : (assembler.assemble source file?).result = .error (.program diagnostic)) :
    diagnostic.cause.IsShowable ∧ ∃ place : Position,
      diagnostic.location = some (.ofPosition (file?.getD assembler.file) place) := by
  rcases stages_of_assemble h with hwrite | ⟨bytes, -, hread | ⟨i, hfails⟩⟩
  · exact absurd hwrite (Source.toBytes_ne_program _ _ _)
  · obtain ⟨place, hplace, hcause⟩ := Source.exists_place_of_tokens hread
    refine ⟨?_, place, hplace⟩
    rcases hcause with ⟨offset, flaw, hcause⟩ | ⟨n, offset, hcause⟩ <;> rw [hcause]
    · exact Cause.isShowable_malformed hencoding offset flaw
    · exact Cause.isShowable_surrogate n offset
  · -- The words that are read are words of the text, and are placed where they start in it.
    obtain ⟨more, hmore⟩ := Token.items_ofCharacters_prefix (file?.getD assembler.file)
      (Source.characters assembler.encoding bytes)
    have hwhole := hfails.append more
    rw [Source.tokens, hmore, hpredefined] at hwhole
    obtain ⟨hfirst, hplace⟩ := Scope.firstOffends_of_failsAt hwhole
    obtain ⟨word, -, hoffends⟩ := hfirst.offends
    exact ⟨Cause.isShowable_of_offends hfile hnames hoffends, _, hplace⟩

/-- **What a program says cannot forge a diagnostic.**  If the names of the file and of the encoding
can be shown, and the labels given beforehand have names as programs can give them, then the message
about a program that is refused is the place in the file and the description, and after them,
exactly if there is a hint that says anything, a newline and the hint.  All other characters of the
message are printable, whatever characters the program has.  This holds after whatever the assembler
has been asked for before. -/
theorem message_of_assemble (predefined : LabelTable) (encoding file : String)
    (operations : List Operation) (source : Source) (file? : Option String)
    (diagnostic : Diagnostic)
    (hnames : ∀ label ∈
      predefined.names ++ (operations.filterMap Operation.definition?).map Prod.fst, IsName label) :
    let assembler := (new predefined encoding file).performAll operations
    let name := file?.getD assembler.file
    IsShowable name → IsShowable assembler.encoding →
    (assembler.assemble source file?).result = .error (.program diagnostic) →
    ∃ place : Position, diagnostic.location = some (.ofPosition name place) ∧
      let heading := String.join [name, ":", toString place.line, ":", toString place.column,
        ": error: ", diagnostic.cause.description]
      IsShowable heading ∧
      ((∃ hint, diagnostic.cause.hint = some hint ∧ hint ≠ "" ∧ IsShowable hint ∧
          diagnostic.message = String.join [heading, "\nhint: ", hint]) ∨
        (∀ hint, diagnostic.cause.hint = some hint → hint = "") ∧ diagnostic.message = heading) ∧
      ∀ c ∈ diagnostic.message.toList, c ≠ '\n' → isPrintable c = true ∧
        0x20 ≤ c.toNat ∧ ¬ (0x7f ≤ c.toNat ∧ c.toNat ≤ 0x9f) ∧ c ≠ '\u2028' ∧ c ≠ '\u2029' := by
  intro assembler name hname hencoding h
  have hset := (isSet_new predefined encoding file).performAll operations
  have hall : ∀ label ∈ (LabelTable.net (predefined.entries ++
      operations.filterMap Operation.definition?)).names, IsName label := by
    intro label hm
    rw [LabelTable.names_net, List.mem_eraseDups, List.map_append] at hm
    exact hnames label hm
  obtain ⟨hcause, place, hplace⟩ := isShowable_of_assemble hset.predefined hall hname hencoding h
  have hheading := Diagnostic.isShowable_headline hname hcause hplace
  refine ⟨place, hplace, ?_⟩
  rw [← Diagnostic.headline_of_place hplace]
  refine ⟨hheading, ?_, fun c hc hnewline => ?_⟩
  · rcases diagnostic.message_cases with ⟨hint, hhint, hne, hmessage⟩ | hplain
    · exact .inl ⟨hint, hhint, hne, hcause.hint hint hhint, hmessage⟩
    · exact .inr hplain
  · have hprintable := Diagnostic.isPrintable_of_mem_message hheading hcause hc hnewline
    exact ⟨hprintable, no_control_of_isPrintable hprintable⟩

/-- A word with an escape sequence, a separator of lines, quotes and a carriage return in it. -/
theorem message_of_assemble_escape :
    let assembler := (new .empty "utf-8" "<input>").performAll [.defineLabel ['a'] 1]
    let word := ['\x1b', '[', '2', 'J', '\u2028', '\'', '"', '\r']
    let diagnostic : Diagnostic := ⟨.unrecognized word, some ⟨"<input>", 1, 3⟩⟩
    (assembler.assemble (.text ('1' :: ' ' :: word)) none).result = .error (.program diagnostic) ∧
      diagnostic.cause.description =
        "unrecognized token shape: '\\x1b[2J\\u2028\\'\"\\r'" ∧
      ∀ c ∈ diagnostic.message.toList, c ≠ '\n' → isPrintable c = true := by
  intro assembler word diagnostic
  have hresult : (assembler.assemble (.text ('1' :: ' ' :: word)) none).result =
      .error (.program diagnostic) := by decide +kernel
  have hnames : ∀ label ∈ [['a']], IsName label :=
    List.forall_mem_singleton.2 ⟨List.cons_ne_nil _ _, (all_isLabelChar_iff ['a']).1 rfl⟩
  obtain ⟨place, -, -, -, hall⟩ := message_of_assemble .empty "utf-8" "<input>"
    [.defineLabel ['a'] 1] (.text ('1' :: ' ' :: word)) none diagnostic hnames (by decide)
    (by decide) hresult
  exact ⟨hresult, by decide +kernel, fun c hc hnewline => (hall c hc hnewline).1⟩

end Assembler

end StackAssembler

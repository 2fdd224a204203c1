import StackAssembler.Proofs.Command.Define
import StackAssembler.Proofs.Command.Internal
import StackAssembler.Proofs.Program.Offences

/-!
# Labels from the command line

A label that is defined on the command line is there from the first word of the program on.  Every
way of writing its address says the same number, a reference to it stands for that number reduced to
a word, and the program cannot define it again.  Of several definitions of a label the last one
counts, and in which order different labels are defined makes no difference to the words.

## Main definitions

* `Define.IsNumeral`: the ways of writing an address.
* `Define.IsDefinition`: the ways of writing a definition.
-/

namespace StackAssembler

/-! ## What is written -/

namespace Command.Define

open Text.Base (ten sixteen)

/-- An integer is written in decimal, with at most 4300 digits, or if it is not negative in
hexadecimal digits behind the mark, in any mixture of cases. -/
inductive IsNumeral (n : Int) : List Char → Prop
  | decimal : (Text.decimal n.natAbs).length ≤ 4300 → IsNumeral n (Text.signedDecimal n)
  | hexadecimal {digits : List Char} : 0 ≤ n → digits.map Char.toLower = Text.hex 0 n.toNat →
      IsNumeral n ('0' :: 'x' :: digits)

/-- A label is defined by its name, an equals sign and its address, with any blanks around the name
and around the address. -/
inductive IsDefinition (name : LabelName) (n : Int) : List Char → Prop
  | mk {front back left right numeral : List Char} :
      (∀ c ∈ front ++ back ++ left ++ right, Text.isBlank c = true) → IsNumeral n numeral →
      IsDefinition name n (front ++ name ++ back ++ '=' :: (left ++ numeral ++ right))

variable {name : LabelName} {n : Int} {text numeral : List Char}

theorem unsigned_decimal {n : Nat} (h : (Text.decimal n).length ≤ 4300) :
    Text.Base.Unsigned ten.scriptDigit? ten (Text.decimal n) n := by
  obtain ⟨digits, hdigits, hvalue⟩ := Text.denotes_decimal n
  have hlength : (Text.decimal n).length = digits.length := List.Forall₂.length_eq hdigits
  have hgroup := (Text.grouped_of_reads (Text.decimal_ne_nil n) hdigits).transfer
    (Text.keepsDigits_scriptDigit? ten) (List.forall₂_refl _)
  have hunsigned : Text.Base.Unsigned ten.scriptDigit? ten _ (ten.value digits) :=
    .digits hgroup fun _ => hlength ▸ h
  rwa [hvalue] at hunsigned

/-- An integer that is written is a number that the help text knows. -/
theorem IsNumeral.isNumber (h : IsNumeral n numeral) : IsNumber numeral n := by
  cases h with
  | decimal hlength =>
      cases n with
      | ofNat n => exact .decimal (.plain (unsigned_decimal hlength))
      | negSucc n => exact .decimal (.minus (unsigned_decimal hlength))
  | @hexadecimal digits hnonneg hdigits =>
      have hdenotes : sixteen.Denotes (digits.map Char.toLower) n.toNat :=
        hdigits ▸ Text.denotes_hex 0 n.toNat
      obtain ⟨values, hvalues, hvalue⟩ := hdenotes.of_map_toLower
      have hne : digits ≠ [] := by
        intro hnil
        rw [hnil] at hdigits
        exact Text.hex_ne_nil 0 n.toNat hdigits.symm
      have hnumber := IsNumber.hexadecimal (.inl rfl) (Text.grouped_of_reads hne hvalues)
      rwa [hvalue, Int.toNat_of_nonneg hnonneg] at hnumber

theorem isBlank_of_isName (hn : IsName name) : ∀ c ∈ name, Text.isBlank c = false := by
  intro c hc
  rcases hn.2 c hc with ⟨hlow, hhigh⟩ | rfl
  · have hlow : 0x61 ≤ c.toNat := hlow
    have hhigh : c.toNat ≤ 0x7a := hhigh
    simp only [Text.isBlank, Bool.or_eq_false_iff, Bool.and_eq_false_iff,
      decide_eq_false_iff_not, beq_eq_false_iff_ne]
    omega
  · decide

/-- **What is written is what is read.** -/
theorem parse_of_isDefinition (hn : IsName name) (h : IsDefinition name n text) :
    parse (String.ofList text) = .ok (name, n) := by
  cases h with
  | @mk front back left right numeral hblank hnumeral =>
      simp only [List.forall_mem_append] at hblank
      obtain ⟨⟨⟨hfront, hback⟩, hleft⟩, hright⟩ := hblank
      have hname : Text.trim (front ++ name ++ back) = name :=
        Text.trimEnd_dropWhile_append hfront hback
          (fun c hc => isBlank_of_isName hn c (List.mem_of_mem_head? hc))
          (fun c hc => isBlank_of_isName hn c (List.mem_of_mem_getLast? hc))
      have hvalue : Text.trim (left ++ numeral ++ right) = numeral :=
        Text.trimEnd_dropWhile_append hleft hright
          (fun c hc => hnumeral.isNumber.isBlank_eq_false c (List.mem_of_mem_head? hc))
          (fun c hc => hnumeral.isNumber.isBlank_eq_false c (List.mem_of_mem_getLast? hc))
      have hequals : '=' ∉ front ++ name ++ back := by
        have hno : ∀ text : List Char, (∀ c ∈ text, Text.isBlank c = true) → '=' ∉ text := by
          intro text h hm
          exact absurd (h '=' hm) (by decide)
        simp [hno front hfront, hno back hback, hn.not_mem (c := '=') rfl]
      have hread : value? (left ++ numeral ++ right) = some n :=
        (value?_eq_some_iff _ n).2 (.inl (hvalue.symm ▸ hnumeral.isNumber))
      rw [parse_of_toList (String.toList_ofList ..) hequals, hread, hname]
      rfl

end Command.Define

/-! ## Programs -/

namespace Assembler

variable {assembler : Assembler} {predefined : LabelTable} {bytes : List UInt8} {file : String}
variable {name : LabelName} {address : Int}

/-- A reference to a predefined label stands for its address, reduced to a word. -/
theorem word_of_predefined (hp : assembler.predefined = predefined.wrapped) (hn : IsName name)
    (hget : predefined.get? name = some address) {words : List Int}
    (hr : (assembler.assembleBytes bytes file).result = .ok words) {i : Nat} {token : Token}
    (hi : (Source.tokens file assembler.encoding bytes).items[i]? = some token)
    (ht : token.text = '&' :: name) : words[i]? = some (address % 2 ^ 32) := by
  obtain ⟨last, houtcome⟩ := (result_eq_ok_iff words).1 hr
  rw [outcome, hp, Scope.outcome_eq_ok_iff] at houtcome
  obtain ⟨_, scope, hrun, result, hstep, hword⟩ := Scope.exists_step_of_run houtcome.1 hi
  have hfollows := (Scope.follows_start predefined).run hrun
  have hlabel : scope.labels.get? name = some (address % 2 ^ 32) :=
    (hfollows.get?_eq_some_iff hn _).2 (.inl ⟨address, hget, rfl⟩)
  rw [Scope.step_of_reference hn ht, hlabel] at hstep
  cases hstep
  exact hword

/-- It is never missed. -/
theorem result_ne_undefinedLabel (hp : assembler.predefined = predefined.wrapped)
    (hn : IsName name) (hget : predefined.get? name = some address)
    (similar : List LabelName) (location : Option Location) :
    (assembler.assembleBytes bytes file).result ≠
      .error (.program ⟨.undefinedLabel name similar, location⟩) := by
  intro hr
  rw [result_eq_error_iff, outcome, hp, Scope.outcome_eq_error_iff] at hr
  rcases hr with hrun | ⟨-, hread⟩
  · obtain ⟨i, token, values, scope, -, hrun, hstep⟩ := (Scope.run_eq_error_iff ..).1 hrun
    have hfollows := (Scope.follows_start predefined).run hrun
    have hrefuses := (Scope.step_eq_error_iff ..).1 hstep
    generalize token.text = word at hrefuses
    cases hrefuses with
    | undefined _ hm =>
        have hmem : name ∈ predefined.names := (predefined.mem_names_iff name).2 ⟨_, hget⟩
        exact hm ((hfollows.mem_names_iff hn).2 (.inl hmem))
  · obtain ⟨place, hinput⟩ := Source.ofInput_of_tokens hread
    cases hinput

/-- A word that defines it is an error as soon as it is reached, and it was defined nowhere in the
program. -/
theorem result_of_redefinition (hp : assembler.predefined = predefined.wrapped)
    (hn : IsName name) (hget : predefined.get? name = some address) {i : Nat} {token : Token}
    (hi : (Source.tokens file assembler.encoding bytes).items[i]? = some token)
    (ht : token.text = name ++ [':']) {values : List Int}
    (htranslates : Translates predefined
      (((Source.tokens file assembler.encoding bytes).items.take i).map Token.text) values) :
    (assembler.assembleBytes bytes file).result =
      .error (.program ⟨.duplicateLabel name none, some token.location⟩) := by
  obtain ⟨scope, hrun⟩ := ((Scope.follows_start predefined).exists_run_iff _).2 htranslates
  have hremembers := (Scope.remembers_start predefined).run hrun
  have hmem : name ∈ predefined.names := (predefined.mem_names_iff name).2 ⟨_, hget⟩
  have hstep : scope.step token = _ := Scope.step_of_definition hn ht
  rw [if_pos ((hremembers.mem_names_iff hn).2 (.inl hmem)), hremembers.lookup_eq_none hn hmem]
    at hstep
  rw [result_eq_error_iff, outcome, hp, Scope.outcome_eq_error_iff]
  exact .inl ((Scope.run_eq_error_iff ..).2 ⟨i, token, values, scope, hi, hrun, hstep⟩)

end Assembler

/-! ## Runs -/

namespace Command

/-- What a run assembles, once its settings are valid, its definitions are read and its input is. -/
theorem Invocation.exists_result (invocation : Invocation) {env : Environment} {tree : Tree}
    {defines : List (LabelName × Int)} {bytes : List UInt8}
    (hvalid : (invocation.settings env).validate = .ok ())
    (hdefines : invocation.defines.mapM Define.parse = .ok defines)
    (hread : tree.read (Path.ofString invocation.input).text = .ok bytes) :
    ∃ assembly, ∃ assembler : Assembler, invocation.assembly? env tree = some assembly ∧
      assembler.predefined = (LabelTable.net defines).wrapped ∧
      assembler.encoding = (invocation.settings env).encoding ∧
      assembly.result =
        (assembler.assembleBytes bytes (Path.ofString invocation.input).text).result := by
  have hset := isSet_defines
    (Assembler.isSet_new .empty (invocation.settings env).encoding Assembler.defaultFile) defines
  generalize hassembler : defines.foldl
    (fun assembler entry => assembler.defineLabel entry.1 entry.2)
    (Assembler.new .empty (invocation.settings env).encoding Assembler.defaultFile) = assembler
    at hset
  have hassembly : invocation.assembly? env tree =
      some (assembler.assembleFile tree invocation.input) := by
    simp only [Invocation.assembly?, hvalid, hdefines, hassembler]
  refine ⟨_, assembler, hassembly, hset.predefined, hset.encoding, ?_⟩
  rw [result_assembleFile, hread]

end Command

end StackAssembler

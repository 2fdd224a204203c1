import StackAssembler.Proofs.Command.Failure
import StackAssembler.Proofs.Program.Internal
import StackAssembler.Proofs.Settings

/-!
# Internal errors of the command

What a run can meet that is neither wrong with the program nor with the command line nor with a file
is shut out before it could be met: settings are checked, so their names have a meaning, and an
input that is a file has a name, so there is a default output.  What is left are the two ways in
which a program in UTF-8 can come to an internal error.

## Main definitions

* `IsExtreme`: a program has a number of too many digits, or too many words.
* `Invocation.Ends`: how a run ends.
-/

namespace StackAssembler.Command

open Encoding

variable {invocation : Invocation} {settings : Settings} {words : List Int} {target : Path}
variable {tree : Tree} {env : Environment} {failure : Failure}

/-! ## Settings -/

/-- Settings whose encoding has a name are refused as settings. -/
theorem exists_setting_of_validate (hname : isName settings.encoding = true)
    (h : settings.validate = .error failure) : ∃ fault, failure = .setting fault := by
  rw [Settings.validate, hname] at h
  simp only [Bool.not_true, Bool.false_eq_true, if_false] at h
  split at h
  · cases h
    exact ⟨_, rfl⟩
  · split at h
    · cases h
      exact ⟨_, rfl⟩
    · split at h
      · cases h
        exact ⟨_, rfl⟩
      · split at h
        · cases h
          exact ⟨_, rfl⟩
        · cases h

/-- In settings that are valid the names of the format and of the byte order have a meaning. -/
theorem names_of_validate (h : settings.validate = .ok ()) :
    (∃ format, Format.ofName? settings.format = some format) ∧
      ∃ order, ByteOrder.ofName? settings.byteOrder = some order := by
  have hvalid := (Settings.validate_eq_ok_iff settings).1 h
  exact ⟨Option.isSome_iff_exists.1 ((Format.isSome_ofName?_iff _).2 hvalid.format),
    Option.isSome_iff_exists.1 ((ByteOrder.isSome_ofName?_iff _).2 hvalid.byteOrder)⟩

/-- A format that is not the binary one is a style of listings. -/
theorem exists_style {name : String} {format : Format} (h : Format.ofName? name = some format)
    (hne : name ≠ Format.binary.name) : ∃ style, Style.ofName? name = some style := by
  have hbeq := List.find?_some h
  obtain rfl : format.name = name := eq_of_beq hbeq
  cases format with
  | binary => exact absurd rfl hne
  | listing style =>
      refine ⟨style, ?_⟩
      cases style <;> decide

/-- **In settings that are valid words have bytes.** -/
theorem exists_outputData (h : settings.validate = .ok ())
    (hfits : ∀ word ∈ words, Word.Fits word) : ∃ data, outputData settings words = .ok data := by
  obtain ⟨⟨format, hformat⟩, order, horder⟩ := names_of_validate h
  rw [outputData]
  split
  · have hdata := (Image.ofWords_eq_ok_iff order words _).2 ⟨hfits, rfl⟩
    rw [Image.ofWordsNamed, horder]
    exact ⟨_, hdata⟩
  · next hne =>
      obtain ⟨style, hstyle⟩ := exists_style hformat hne
      have htext := (Listing.ofWords_eq_ok_iff style words _).2 ⟨hfits, rfl⟩
      simp only [Listing.ofWordsNamed, hstyle, htext]
      exact ⟨_, rfl⟩

/-! ## The input and the target -/

/-- An input that passes its check is a file. -/
theorem exists_file_of_checkInput {path : String} (h : Invocation.checkInput tree path = .ok ()) :
    ∃ place data, tree.locate path = .ok place ∧ tree.get? place = some (.file data) := by
  rw [Invocation.checkInput] at h
  cases hk : Invocation.lookUp tree path with
  | error refusal => simp [hk, bind, Except.bind] at h
  | ok found =>
      cases found with
      | none => simp [hk, bind, Except.bind] at h
      | some node =>
          cases node with
          | directory => simp [hk, bind, Except.bind] at h
          | file data =>
              rw [Invocation.lookUp] at hk
              split at hk
              · next node hstatus =>
                  cases hk
                  rw [Tree.status] at hstatus
                  cases hl : tree.locate path with
                  | error failure => simp [hl, bind, Except.bind] at hstatus
                  | ok place =>
                      simp only [hl, bind, Except.bind] at hstatus
                      split at hstatus
                      · next hget =>
                          cases hstatus
                          exact ⟨place, data, rfl, hget⟩
                      · cases hstatus
              · cases hk
              · cases hk

/-- **An input that is a file has a default output.** -/
theorem exists_target {arguments : List String}
    (h : Request.ofArguments tree arguments = .ok (.assemble invocation)) (settings : Settings) :
    ∃ target, invocation.target settings = .ok target := by
  obtain ⟨line, -, -, hcheck⟩ := (request_eq_assemble_iff ..).1 h
  obtain ⟨input, -, -, hinput, rfl⟩ := (Invocation.check_eq_ok_iff ..).1 hcheck
  obtain ⟨place, data, hl, hget⟩ := exists_file_of_checkInput hinput
  have hparts := Tree.parts_ne_nil_of_file hl hget
  rw [Invocation.target]
  split
  · exact ⟨_, rfl⟩
  · change ∃ target, (Path.ofString input).defaultOutput settings.format = .ok target
    rw [Path.defaultOutput, Path.withSuffix, List.getLast?_eq_some_getLast hparts]
    exact ⟨_, rfl⟩

/-! ## Assembling -/

/-- Labels that are defined one after the other are settings. -/
theorem isSet_defines {assembler : Assembler} {definitions : List (LabelName × Int)}
    {encoding file : String} (h : assembler.IsSet definitions encoding file)
    (defines : List (LabelName × Int)) :
    (defines.foldl (fun assembler entry => assembler.defineLabel entry.1 entry.2) assembler).IsSet
      (definitions ++ defines) encoding file := by
  induction defines generalizing assembler definitions with
  | nil => rwa [List.append_nil]
  | cons entry defines ih =>
      rw [List.append_cons]
      exact ih (h.perform (.defineLabel entry.1 entry.2))

theorem result_assembleFile (assembler : Assembler) (tree : Tree) (path : String) :
    (assembler.assembleFile tree path).result =
      match tree.read (Path.ofString path).text with
      | .ok bytes => (assembler.assembleBytes bytes (Path.ofString path).text).result
      | .error failure => .error failure := by
  unfold Assembler.assembleFile
  cases hread : tree.read (Path.ofString path).text <;> simp only [hread]

/-- What a run assembles with. -/
theorem exists_assembler_of_assembly {assembly : Assembly}
    (h : invocation.assembly? env tree = some assembly) :
    (invocation.settings env).validate = .ok () ∧ ∃ assembler definitions,
      Assembler.IsSet definitions (invocation.settings env).encoding Assembler.defaultFile
        assembler ∧
      assembly = assembler.assembleFile tree invocation.input := by
  rw [Invocation.assembly?] at h
  cases hv : (invocation.settings env).validate with
  | error failure => simp [hv] at h
  | ok =>
      cases hd : invocation.defines.mapM Define.parse with
      | error error => simp [hv, hd] at h
      | ok defines =>
          simp only [hv, hd, Option.some.injEq] at h
          have hset := isSet_defines
            (Assembler.isSet_new .empty (invocation.settings env).encoding Assembler.defaultFile)
            defines
          exact ⟨rfl, _, _, hset, h.symm⟩

/-- What an internal error says of the bytes of a program: there is a number of too many digits, or
there are too many words. -/
def IsExtreme (bytes : List UInt8) : Prop :=
  (∃ word ∈ wordsOfBytes bytes, IsOverlong word) ∨ 2 ^ 32 ≤ (wordsOfBytes bytes).length

section Assembly

variable {assembly : Assembly}

/-- An assembly fails because of the file, or else because of what is in it. -/
theorem failure_of_assembly (hu : invocation.IsUsable)
    (ha : invocation.assembly? env tree = some assembly) (hr : assembly.result = .error failure) :
    (∃ error, failure = .file error) ∨
      ∃ (assembler : Assembler) (bytes : List UInt8),
        assembler.encoding = (invocation.settings env).encoding ∧
        tree.read (Path.ofString invocation.input).text = .ok bytes ∧
        (assembler.assembleBytes bytes (Path.ofString invocation.input).text).result =
          .error failure := by
  obtain ⟨-, assembler, _, hset, rfl⟩ := exists_assembler_of_assembly ha
  rw [result_assembleFile] at hr
  cases hread : tree.read (Path.ofString invocation.input).text with
  | error other =>
      have hnul := hu.input.notMem_text (Path.isNormal_ofString _)
      obtain ⟨error, rfl⟩ := Tree.exists_file_of_read_error hnul hread
      simp only [hread] at hr
      cases hr
      exact .inl ⟨error, rfl⟩
  | ok bytes =>
      simp only [hread] at hr
      exact .inr ⟨assembler, bytes, hset.encoding, rfl, hr⟩

/-- A file that comes to an internal error has a number of too many digits. -/
theorem isExtreme_of_result_error (hu : invocation.IsUsable)
    (hname : ofName? (invocation.settings env).encoding = some .utf8)
    (ha : invocation.assembly? env tree = some assembly) {defect : Defect}
    (hr : assembly.result = .error (.internal defect)) :
    ∃ bytes, tree.read (Path.ofString invocation.input).text = .ok bytes ∧ IsExtreme bytes := by
  rcases failure_of_assembly hu ha hr with ⟨error, hfile⟩ | ⟨assembler, bytes, hencoding, hread, hr⟩
  · cases hfile
  · rw [← hencoding] at hname
    exact ⟨bytes, hread, .inl (Assembler.exists_isOverlong hname hr)⟩

/-- A file with words that have no bytes has too many words. -/
theorem isExtreme_of_outputData_error
    (hname : ofName? (invocation.settings env).encoding = some .utf8)
    (ha : invocation.assembly? env tree = some assembly) (hr : assembly.result = .ok words)
    (ho : outputData (invocation.settings env) words = .error failure) :
    ∃ bytes, tree.read (Path.ofString invocation.input).text = .ok bytes ∧ IsExtreme bytes := by
  obtain ⟨hvalid, assembler, definitions, hset, rfl⟩ := exists_assembler_of_assembly ha
  obtain ⟨word, hm, hfits⟩ : ∃ word ∈ words, ¬ Word.Fits word := by
    by_contra hall
    push Not at hall
    obtain ⟨data, hdata⟩ := exists_outputData hvalid hall
    rw [ho] at hdata
    cases hdata
  rw [result_assembleFile] at hr
  cases hread : tree.read (Path.ofString invocation.input).text with
  | error failure => simp [hread] at hr
  | ok bytes =>
      simp only [hread] at hr
      rw [← hset.encoding] at hname
      have hlong := Assembler.lt_length_of_not_fits hset.fits hr hm hfits
      have hle := Assembler.length_le_wordsOfBytes hname hr
      exact ⟨bytes, rfl, .inr (by omega)⟩

end Assembly

/-! ## Runs -/

/-- How a run ends: the settings or a definition of a label are refused, the program is, its words
have no bytes, a file cannot be read or written, or the run succeeds. -/
inductive Invocation.Ends (invocation : Invocation) (env : Environment) (tree : Tree) :
    Outcome → Prop
  | settings {failure : Failure} : (invocation.settings env).validate = .error failure →
      Ends invocation env tree
        ((Progress.start ⟨invocation.verbose, false⟩ tree).fail failure)
  | definition (error : UsageError) : Ends invocation env tree (error.outcome tree)
  | program {assembly : Assembly} {progress : Progress} {failure : Failure} :
      invocation.assembly? env tree = some assembly → assembly.result = .error failure →
      Ends invocation env tree (progress.fail failure)
  | output {assembly : Assembly} {words : List Int} {progress : Progress} {failure : Failure} :
      invocation.assembly? env tree = some assembly → assembly.result = .ok words →
      outputData (invocation.settings env) words = .error failure →
      Ends invocation env tree (progress.fail failure)
  | file {progress : Progress} {error : FileError} :
      Ends invocation env tree (progress.fail (.file error))
  | success {outcome : Outcome} : outcome.exit = .success → Ends invocation env tree outcome

/-- **Every run of a command line that passes its checks ends so.** -/
theorem ends_of_request {arguments : List String}
    (hrequest : Request.ofArguments tree arguments = .ok (.assemble invocation))
    (env : Environment) : invocation.Ends env tree (invocation.run env tree) := by
  have hu := isUsable_of_request hrequest
  cases ha : invocation.assembly? env tree with
  | none =>
      rcases Invocation.run_of_none ha with ⟨failure, hv, hrun⟩ | ⟨error, hrun⟩
      · exact hrun ▸ .settings hv
      · exact hrun ▸ .definition error
  | some assembly =>
      cases hr : assembly.result with
      | error failure => exact Invocation.run_of_result_error ha hr ▸ .program ha hr
      | ok words =>
          obtain ⟨-, hrun⟩ := Invocation.run_of_result_ok ha hr
          rw [hrun]
          rcases deliverAll_cases hu (invocation.settings env) words assembly.assembler.labels
            ((invocation.begin env tree).note assembly.events) with
            ⟨failure, hfail, hwhy⟩ | ⟨target, delivered, error, -, -, hfail⟩ | hsuccess
          · rw [hfail]
            rcases hwhy with ht | ho | ⟨error, rfl⟩
            · obtain ⟨target, htarget⟩ := exists_target hrequest (invocation.settings env)
              rw [ht] at htarget
              cases htarget
            · exact .output ha hr ho
            · exact .file
          · exact hfail ▸ .file
          · exact .success hsuccess

/-- An invocation that ends in an internal error has an extreme program. -/
theorem isExtreme_of_internalError {arguments : List String}
    (hrequest : Request.ofArguments tree arguments = .ok (.assemble invocation))
    (hname : ofName? (invocation.settings env).encoding = some .utf8)
    (hexit : (invocation.run env tree).exit = .internalError) :
    ∃ bytes, tree.read (Path.ofString invocation.input).text = .ok bytes ∧ IsExtreme bytes := by
  have hinternal : ∀ {progress : Progress} {failure : Failure},
      (progress.fail failure).exit = .internalError → ∃ defect, failure = .internal defect := by
    intro progress failure h
    cases failure with
    | internal defect => exact ⟨defect, rfl⟩
    | _ => cases h
  have hends := ends_of_request hrequest env
  generalize invocation.run env tree = outcome at hends hexit
  cases hends with
  | settings hv =>
      have hisName : isName (invocation.settings env).encoding = true := by
        by_contra hno
        rw [ofName?, if_neg hno] at hname
        cases hname
      obtain ⟨fault, rfl⟩ := exists_setting_of_validate hisName hv
      cases hexit
  | definition error => cases hexit
  | program ha hr =>
      obtain ⟨defect, rfl⟩ := hinternal hexit
      exact isExtreme_of_result_error (isUsable_of_request hrequest) hname ha hr
  | output ha hr ho => exact isExtreme_of_outputData_error hname ha hr ho
  | file => cases hexit
  | success hsuccess => cases hsuccess.symm.trans hexit

end StackAssembler.Command

import StackAssembler.Proofs.Command.Internal
import StackAssembler.Proofs.Settings
import StackAssembler.Proofs.Text.Shown

/-!
# Settings of a run

A setting of a run is what the option says, or else what the variable of the environment says, or
else its default.  The names of formats and byte orders on a command line have been checked before,
and what the environment says is always valid, so the encoding on the command line is all that can
be wrong with the settings of a run.

## Main definitions

* `InEffect`: where the value of a setting comes from.
* `Line.Determines`: the settings of a run are those of its command line and its environment.
* `Outcome.ReportsSetting`: a run is reported to have a setting without a meaning.
-/

namespace StackAssembler.Command

open Encoding

variable {invocation : Invocation} {settings : Settings} {words : List Int}
variable {tree : Tree} {env : Environment} {failure : Failure} {line : Line}
variable {arguments : List String}

/-! ## Where settings come from -/

/-- The value of a setting is that of its option, unless the option is missing or empty; then it is
that of its variable, unless the variable is missing or has no meaning; then it is the default. -/
inductive InEffect (given held : Option String) (gives means : String → String → Prop)
    (default : String) : String → Prop
  | option {text value : String} : given = some text → text ≠ "" → gives text value →
      InEffect given held gives means default value
  | environment {text value : String} : (∀ other, given = some other → other = "") →
      held = some text → means text value → InEffect given held gives means default value
  | default : (∀ other, given = some other → other = "") →
      (∀ text value, held = some text → ¬ means text value) →
      InEffect given held gives means default default

/-- Settings are those of a command line and an environment: each comes from its option, its
variable or its default. -/
structure Line.Determines (line : Line) (env : Environment) (settings : Settings) : Prop where
  encoding : InEffect (line.value? .encoding) env.encoding (fun text value => value = text)
    (fun text value => isKnown text = true ∧ value = text) "utf-8" settings.encoding
  format : InEffect (line.value? .format) env.format (Settings.Chooses Invocation.formats)
    (Settings.Chooses Invocation.formats) "binary" settings.format
  byteOrder : InEffect (line.value? .byteOrder) env.byteOrder
    (Settings.Chooses Invocation.byteOrders) (Settings.Chooses Invocation.byteOrders) "little"
    settings.byteOrder

/-- Without an option the setting is what the environment gives. -/
theorem inEffect_getD {given held setting : Option String}
    {gives means : String → String → Prop} (default : String)
    (hgiven : ∀ other, given = some other → other = "")
    (hsetting : ∀ value, setting = some value ↔ ∃ text, held = some text ∧ means text value) :
    InEffect given held gives means default (setting.getD default) := by
  cases hs : setting with
  | some value =>
      obtain ⟨text, hheld, hmeans⟩ := (hsetting value).1 hs
      exact .environment hgiven hheld hmeans
  | none =>
      refine .default hgiven fun text value hheld hmeans => ?_
      have hsome := (hsetting value).2 ⟨text, hheld, hmeans⟩
      rw [hs] at hsome
      cases hsome

/-- What a variable says that is looked up in lower case. -/
theorem chosen_eq_some_iff {names : List String} {isName : String → Bool}
    (hascii : Settings.IsAscii names) (hname : ∀ name, isName name = true ↔ name ∈ names)
    (held : Option String) (value : String) :
    Settings.chosen Text.lower isName held = some value ↔
      ∃ text, held = some text ∧ Settings.Chooses names text value := by
  simp only [Settings.chosen, Option.filter_eq_some_iff, Option.map_eq_some_iff, hname,
    Settings.chooses_iff_lower hascii]
  constructor
  · rintro ⟨⟨text, htext, rfl⟩, hm⟩
    exact ⟨text, htext, hm, (String.toList_ofList).symm⟩
  · rintro ⟨text, htext, hm, hlower⟩
    exact ⟨⟨text, htext, by rw [hlower, String.ofList_toList]⟩, hm⟩

/-- What an option chooses. -/
theorem chooses_of_choice? {names : List String} (hascii : Settings.IsAscii names)
    {text name : String} (h : Invocation.choice? names text = some name) :
    Settings.Chooses names text name := by
  have hlower := List.find?_some h
  exact (Settings.chooses_iff_lower hascii text name).2
    ⟨List.mem_of_find?_eq_some h, (eq_of_beq hlower).symm⟩

/-- A setting with choices, whose option has passed its check. -/
theorem inEffect_choice {names : List String} {isName : String → Bool} (default : String)
    (hascii : Settings.IsAscii names) (hname : ∀ name, isName name = true ↔ name ∈ names)
    (hempty : "" ∉ names) {given : Option String} (held : Option String)
    (hgiven : ∀ text, given = some text → (Invocation.choice? names text).isSome = true) :
    InEffect given held (Settings.Chooses names) (Settings.Chooses names) default
      ((given.bind (Invocation.choice? names)).getD
        ((Settings.chosen Text.lower isName held).getD default)) := by
  cases given with
  | none => exact inEffect_getD default (by rintro _ ⟨⟩) (chosen_eq_some_iff hascii hname held)
  | some text =>
      obtain ⟨name, hchoice⟩ := Option.isSome_iff_exists.1 (hgiven text rfl)
      have hchooses := chooses_of_choice? hascii hchoice
      rw [Option.bind_some, hchoice, Option.getD_some]
      refine .option rfl ?_ hchooses
      rintro rfl
      have hspells : [] = name.toList := hchooses.spells
      rw [← String.ofList_toList (s := name), ← hspells] at hchooses
      exact hempty hchooses.mem

/-- A choice that passes its check is one of the choices. -/
theorem isSome_choice?_of_checkChoice {opt : Opt} {choices : List String} {value : String}
    (h : Invocation.checkChoice opt choices value = .ok ()) :
    (Invocation.choice? choices value).isSome = true := by
  rw [Invocation.checkChoice] at h
  split_ifs at h with hsome
  exact hsome

/-- **The settings of a run are those of its command line and its environment.** -/
theorem determines_of_request (hline : Line.read arguments = .ok line)
    (h : Request.ofArguments tree arguments = .ok (.assemble invocation)) (env : Environment) :
    line.Determines env (invocation.settings env) := by
  obtain ⟨read, input, hread, rfl, -, hvalue⟩ := exists_line_of_request h
  obtain rfl : line = read := by simpa [hline] using hread
  refine ⟨?_, ?_, ?_⟩
  · have hsetting : ∀ value, env.encoding.filter isKnown = some value ↔
        ∃ text, env.encoding = some text ∧ isKnown text = true ∧ value = text := by
      intro value
      rw [Option.filter_eq_some_iff]
      constructor
      · rintro ⟨hheld, hknown⟩
        exact ⟨value, hheld, hknown, rfl⟩
      · rintro ⟨_, hheld, hknown, rfl⟩
        exact ⟨hheld, hknown⟩
    change InEffect _ _ _ _ _ (((line.value? .encoding).filter (· != "")).getD
      ((env.encoding.filter isKnown).getD "utf-8"))
    cases hgiven : (line.value? .encoding).filter (· != "") with
    | some text =>
        obtain ⟨hoption, hne⟩ := Option.filter_eq_some_iff.1 hgiven
        exact .option hoption (by simpa using hne) rfl
    | none =>
        refine inEffect_getD "utf-8" (fun other hoption => ?_) hsetting
        simpa [hoption, Option.filter] using hgiven
  · exact inEffect_choice "binary" Settings.isAscii_formats Format.isSome_ofName?_iff
      (by decide) env.format
      fun text htext => isSome_choice?_of_checkChoice (hvalue .format text htext)
  · exact inEffect_choice "little" Settings.isAscii_byteOrders ByteOrder.isSome_ofName?_iff
      (by decide) env.byteOrder
      fun text htext => isSome_choice?_of_checkChoice (hvalue .byteOrder text htext)

/-! ## What is wrong with settings -/

theorem mem_of_inEffect {names : List String} {given held : Option String}
    {default value : String} (hdefault : default ∈ names)
    (h : InEffect given held (Settings.Chooses names) (Settings.Chooses names) default value) :
    value ∈ names := by
  cases h with
  | option _ _ hchooses => exact hchooses.mem
  | environment _ _ hchooses => exact hchooses.mem
  | default => exact hdefault

/-- What an option says counts, if it says anything. -/
theorem InEffect.of_option {given held : Option String} {gives means : String → String → Prop}
    {default text value : String} (h : InEffect given held gives means default value)
    (hgiven : given = some text) (hne : text ≠ "") : gives text value := by
  cases h with
  | option hother _ hgives => exact Option.some.inj (hother.symm.trans hgiven) ▸ hgives
  | environment hnone => exact absurd (hnone text hgiven) hne
  | default hnone => exact absurd (hnone text hgiven) hne

/-- **Nothing but the encoding on the command line can be unknown.** -/
theorem exists_option_of_unknown (hd : line.Determines env settings)
    (h : isKnown settings.encoding = false) :
    ∃ name, line.value? .encoding = some name ∧ name ≠ "" ∧ settings.encoding = name := by
  have hsource := hd.encoding
  generalize settings.encoding = encoding at h hsource
  cases hsource with
  | @option text _ hgiven hne hgives => exact ⟨text, hgiven, hne, hgives⟩
  | environment _ _ hmeans =>
      rw [hmeans.2, hmeans.1] at h
      cases h
  | default =>
      have hdefault : isKnown "utf-8" = true := by decide +kernel
      rw [hdefault] at h
      cases h

/-- The settings of a run are valid if their encoding is known. -/
theorem validate_settings (hd : line.Determines env (invocation.settings env))
    (hknown : isKnown (invocation.settings env).encoding = true) :
    (invocation.settings env).validate = .ok () := by
  rw [Settings.validate_eq_ok_iff]
  exact ⟨hknown, mem_of_inEffect (by decide) hd.format, mem_of_inEffect (by decide) hd.byteOrder,
    (Settings.isValid_ofEnvironment env).logLevel⟩

/-! ## Reports -/

/-- A run is reported to have a setting without a meaning. -/
def Outcome.ReportsSetting (outcome : Outcome) : Prop :=
  outcome.exit = .usageError ∧
    "smasm: configuration error: ".toList <+: outcome.stderr.toList

/-- A fault of the settings is reported as one. -/
theorem reportsSetting_fail (verbosity : Verbosity) (tree : Tree) (fault : SettingFault) :
    ((Progress.start verbosity tree).fail (.setting fault)).ReportsSetting := by
  refine ⟨rfl, ?_⟩
  have hreport : report (.setting fault) = "smasm: configuration error: " ++ fault.message := by
    simp [report, name, ← String.append_assoc]
  have hstderr : ((Progress.start verbosity tree).fail (.setting fault)).stderr =
      Text.plain (report (.setting fault)) ++ "\n" := by
    simp [Progress.fail, Progress.start, exitCode]
  rw [hstderr, hreport, String.toList_append, Text.toList_plain_append (by decide),
    List.append_assoc]
  exact List.prefix_append _ _

/-- An error in the use of the command is not. -/
theorem not_reportsSetting_usage (error : UsageError) (tree : Tree) :
    ¬ (error.outcome tree).ReportsSetting := by
  rintro ⟨-, hprefix⟩
  -- The first line is the reminder of how the command is called, or else the message.
  obtain ⟨front, rest, hfront, hlines⟩ : ∃ front rest : String,
      (front = "Usage: " ∨ front = "Error: ") ∧
        (error.outcome tree).stderr = Text.plain (front ++ rest) := by
    cases hr : error.hasReminder with
    | true => exact ⟨"Usage: ", _, .inl rfl,
        by simp [UsageError.outcome, hr, joinLines, reminder, usageLine, String.append_assoc]; rfl⟩
    | false => exact ⟨"Error: ", _, .inr rfl,
        by simp [UsageError.outcome, hr, joinLines, String.append_assoc]; rfl⟩
  have hescape : Text.escape ∉ front.toList := by
    rcases hfront with rfl | rfl <;> decide
  rw [hlines, Text.toList_plain_append hescape] at hprefix
  rcases hfront with rfl | rfl <;> cases (List.cons_prefix_cons.1 hprefix).1

/-- Any other failure is not either. -/
theorem not_reportsSetting_fail (progress : Progress) (h : ∀ fault, failure ≠ .setting fault) :
    ¬ (progress.fail failure).ReportsSetting := by
  rintro ⟨hexit, -⟩
  cases failure with
  | setting fault => exact h fault rfl
  | _ => cases hexit

/-! ## Runs -/

/-- Whatever is wrong with a program, it is not a setting. -/
theorem ne_setting_of_assembly {assembly : Assembly} (hu : invocation.IsUsable)
    (ha : invocation.assembly? env tree = some assembly)
    (hr : assembly.result = .error failure) (fault : SettingFault) : failure ≠ .setting fault := by
  rintro rfl
  rcases failure_of_assembly hu ha hr with ⟨error, hfile⟩ | ⟨assembler, bytes, -, -, hbytes⟩
  · cases hfile
  · have hassemble : (assembler.assemble (.bytes bytes)
        (some (Path.ofString invocation.input).text)).result = .error (.setting fault) := hbytes
    rcases Assembler.refused_of_assemble hassemble with ⟨_, hinput⟩ | ⟨_, _, _, hrefuses⟩
    · cases hinput
    · cases hrefuses

/-- Nor is what is wrong with words that have no bytes. -/
theorem ne_setting_of_outputData (h : outputData settings words = .error failure)
    (fault : SettingFault) : failure ≠ .setting fault := by
  rintro rfl
  rw [outputData] at h
  split at h
  · rw [Image.ofWordsNamed] at h
    split at h
    · obtain ⟨_, -, hfault⟩ := (Image.ofWords_eq_error_iff ..).1 h
      cases hfault
    · cases h
  · cases ht : Listing.ofWordsNamed settings.format words with
    | ok text => simp [ht, bind, Except.bind, pure, Except.pure] at h
    | error other =>
        simp only [ht, bind, Except.bind] at h
        cases h
        rw [Listing.ofWordsNamed] at ht
        split at ht
        · obtain ⟨_, -, hfault⟩ := (Listing.ofWords_eq_error_iff ..).1 ht
          cases hfault
        · cases ht

/-- A run with an encoding that is not known ends at once. -/
theorem run_of_unknown (h : isKnown (invocation.settings env).encoding = false) (tree : Tree) :
    invocation.run env tree = (Progress.start ⟨invocation.verbose, false⟩ tree).fail
      (if isName (invocation.settings env).encoding = true then
        .setting (.unknownEncoding (invocation.settings env).encoding)
      else .internal .nulInName) := by
  simp only [Invocation.run, Settings.validate_of_unknown h]

/-- A run with valid settings is not reported to have a setting without a meaning. -/
theorem not_reportsSetting_run
    (hrequest : Request.ofArguments tree arguments = .ok (.assemble invocation))
    (hvalid : (invocation.settings env).validate = .ok ()) :
    ¬ (invocation.run env tree).ReportsSetting := by
  have hends := ends_of_request hrequest env
  generalize invocation.run env tree = outcome at hends
  cases hends with
  | settings hv => cases hvalid.symm.trans hv
  | definition error => exact not_reportsSetting_usage error tree
  | program ha hr =>
      have hu := isUsable_of_request hrequest
      exact not_reportsSetting_fail _ (ne_setting_of_assembly hu ha hr)
  | output _ _ ho => exact not_reportsSetting_fail _ (ne_setting_of_outputData ho)
  | file => exact not_reportsSetting_fail _ (by rintro _ ⟨⟩)
  | success hsuccess =>
      rintro ⟨hexit, -⟩
      cases hsuccess.symm.trans hexit

end StackAssembler.Command

import StackAssembler.Proofs.Command.Destination

/-!
# Runs that fail

A run writes only when nothing can go wrong any more but the access to a file.  The paths that the
checks let through can be looked up, so what may fail once the output is written is an access, and
that has an exit code of its own.  So a run that fails for another reason leaves all files as they
are, and has told at most that it began; and a run that fails to access a file has written the
output or nothing.

## Main definitions

* `Invocation.IsUsable`: the paths of an invocation can be looked up.
-/

namespace StackAssembler.Command

variable {invocation : Invocation} {settings : Settings} {words : List Int} {target : Path}
variable {progress later : Progress} {labels : LabelTable} {tree : Tree} {env : Environment}
variable {failure : Failure}

/-! ## Usable paths -/

/-- The paths of an invocation can be looked up. -/
structure Invocation.IsUsable (invocation : Invocation) : Prop where
  input : (Path.ofString invocation.input).IsUsable
  output : ∀ output, invocation.output = some output → (Path.ofString output).IsUsable
  symbols : ∀ symbols, invocation.symbols = some symbols → (Path.ofString symbols).IsUsable

/-- A path that a check has looked up is usable. -/
theorem isUsable_of_lookUp {path : String} {node : Option Node}
    (h : Invocation.lookUp tree path = .ok node) : (Path.ofString path).IsUsable := by
  apply Path.isUsable_ofString
  intro hnul
  have hstatus : tree.status path = .error (.internal .nulInPath) := by
    rw [Tree.status, Tree.locate, if_pos hnul]
    rfl
  rw [Invocation.lookUp, hstatus] at h
  cases h

theorem isUsable_of_checkOutput {opt : Opt} {path : String}
    (h : Invocation.checkOutput tree opt path = .ok ()) : (Path.ofString path).IsUsable := by
  rw [Invocation.checkOutput] at h
  cases hl : Invocation.lookUp tree path with
  | error refusal =>
      rw [hl] at h
      cases h
  | ok node => exact isUsable_of_lookUp hl

theorem isUsable_of_checkInput {path : String} (h : Invocation.checkInput tree path = .ok ()) :
    (Path.ofString path).IsUsable := by
  rw [Invocation.checkInput] at h
  cases hl : Invocation.lookUp tree path with
  | error refusal =>
      rw [hl] at h
      cases h
  | ok node => exact isUsable_of_lookUp hl

/-- What has a value on a command line has been used. -/
theorem mem_opts_of_value? {line : Line} {opt : Opt} {value : String}
    (h : line.value? opt = some value) : opt ∈ line.opts := by
  have hvalue : value ∈ line.values opt := List.mem_of_getLast? h
  obtain ⟨use, huse, -⟩ := List.mem_map.1 hvalue
  obtain ⟨hmem, hopt⟩ := List.mem_filter.1 huse
  rw [Line.opts, List.mem_eraseDups]
  exact List.mem_map.2 ⟨use, hmem, of_decide_eq_true hopt⟩

/-- Checks that all pass pass one by one. -/
theorem eq_ok_of_forM {α : Type} {items : List α} {check : α → Except Refusal Unit}
    (h : items.forM check = .ok ()) : ∀ item ∈ items, check item = .ok () := by
  induction items with
  | nil => exact nofun
  | cons first rest ih =>
      change forM (first :: rest) check = .ok () at h
      rw [List.forM_cons] at h
      cases hf : check first with
      | error refusal =>
          rw [hf] at h
          cases h
      | ok =>
          rw [hf] at h
          intro item hm
          rcases List.mem_cons.1 hm with rfl | hm
          · exact hf
          · exact ih h item hm

/-- What the checks of a command line have let through: the value that counts of every option, and
the input. -/
theorem exists_line_of_request {arguments : List String}
    (h : Request.ofArguments tree arguments = .ok (.assemble invocation)) :
    ∃ line input, Line.read arguments = .ok line ∧ invocation = .ofLine line input ∧
      Invocation.checkInput tree input = .ok () ∧
      ∀ opt value, line.value? opt = some value →
        Invocation.checkValue tree opt value = .ok () := by
  obtain ⟨line, hline, -, hcheck⟩ := (request_eq_assemble_iff ..).1 h
  obtain ⟨input, hvalues, -, hinput, rfl⟩ := (Invocation.check_eq_ok_iff ..).1 hcheck
  refine ⟨line, input, hline, rfl, hinput, fun opt value hv => ?_⟩
  have hopt := eq_ok_of_forM hvalues opt (mem_opts_of_value? hv)
  rwa [hv] at hopt

/-- **The checks of a command line let through paths that can be looked up.** -/
theorem isUsable_of_request {arguments : List String}
    (h : Request.ofArguments tree arguments = .ok (.assemble invocation)) :
    invocation.IsUsable := by
  obtain ⟨line, input, -, rfl, hinput, hvalue⟩ := exists_line_of_request h
  refine ⟨isUsable_of_checkInput hinput, fun output ho => ?_, fun symbols hs => ?_⟩
  · have hpass := hvalue .output output ho
    rw [Invocation.checkValue] at hpass
    split at hpass
    · next hdash =>
        rw [hdash]
        exact Path.isUsable_ofString (by decide)
    · exact isUsable_of_checkOutput hpass
  · exact isUsable_of_checkOutput (hvalue .symbols symbols hs)

theorem isUsable_target (hu : invocation.IsUsable)
    (h : invocation.target settings = .ok target) : target.IsUsable := by
  rw [Invocation.target] at h
  split at h
  · next output ho =>
      cases h
      exact hu.output output ho
  · exact hu.input.defaultOutput h

/-! ## What may fail -/

/-- Words are not delivered if they have no bytes in the form that is asked for, or else because of
a file. -/
theorem deliver_eq_error (ht : invocation.target settings = .ok target) (hu : target.IsUsable)
    (h : deliver settings target words progress = .error failure) :
    outputData settings words = .error failure ∨ ∃ error, failure = .file error := by
  cases ho : outputData settings words with
  | error other =>
      by_cases hdash : target = .dash
      · rw [hdash, deliver_dash, ho] at h
        cases h
        exact .inl rfl
      · have htree := tree_deliver settings words progress hdash
        simp only [h, ho, Except.map, bind, Except.bind, Except.error.injEq] at htree
        exact .inl (congrArg Except.error htree.symm)
  | ok data =>
      by_cases hdash : target = .dash
      · rw [hdash, deliver_dash, ho] at h
        cases h
      · have htree := tree_deliver settings words progress hdash
        simp only [h, ho, Except.map, bind, Except.bind] at htree
        exact .inr (Tree.exists_file_of_put_error (isNormal_target ht) hu htree.symm)

/-- A symbol list is not written because of a file. -/
theorem deliverSymbols_eq_error {symbols : Option String}
    (hu : ∀ path, symbols = some path → (Path.ofString path).IsUsable)
    (h : deliverSymbols symbols labels progress = .error failure) :
    ∃ error, failure = .file error := by
  cases symbols with
  | none => cases h
  | some symbols =>
      rw [deliverSymbols, Tree.writeSymbols] at h
      cases hp : progress.tree.put (Path.ofString symbols).text
          (Encoding.Utf8.encode (Symbols.ofTable labels)) with
      | ok written => simp [hp, bind, Except.bind, pure, Except.pure] at h
      | error other =>
          simp only [hp, bind, Except.bind] at h
          cases h
          exact Tree.exists_file_of_put_error (Path.isNormal_ofString symbols) (hu symbols rfl) hp

/-- What delivering has written. -/
theorem deliver_eq_ok (h : deliver settings target words progress = .ok later) :
    later.tree = progress.tree ∨ target ≠ .dash ∧ ∃ data, outputData settings words = .ok data ∧
      progress.tree.put target.text data = .ok later.tree := by
  by_cases hdash : target = .dash
  · left
    rw [hdash, deliver_dash] at h
    cases ho : outputData settings words with
    | error failure =>
        rw [ho] at h
        cases h
    | ok data =>
        rw [ho] at h
        cases h
        rfl
  · right
    have htree := tree_deliver settings words progress hdash
    rw [h] at htree
    cases ho : outputData settings words with
    | error failure => simp [ho, Except.map, bind, Except.bind] at htree
    | ok data =>
        simp only [ho, Except.map, bind, Except.bind] at htree
        exact ⟨hdash, data, rfl, htree.symm⟩

/-- How the delivery of a program ends: it fails with nothing written, it has delivered the output
and fails to write the symbol list, or it succeeds. -/
theorem deliverAll_cases (hu : invocation.IsUsable) (settings : Settings) (words : List Int)
    (labels : LabelTable) (progress : Progress) :
    let outcome := deliverAll invocation settings words labels progress
    (∃ failure, outcome = progress.fail failure ∧
      (invocation.target settings = .error failure ∨ outputData settings words = .error failure ∨
        ∃ error, failure = .file error)) ∨
    (∃ target delivered error, invocation.target settings = .ok target ∧
      deliver settings target words progress = .ok delivered ∧
      outcome = delivered.fail (.file error)) ∨
    outcome.exit = .success := by
  intro outcome
  cases ht : invocation.target settings with
  | error failure =>
      refine .inl ⟨failure, ?_, .inl rfl⟩
      simp only [outcome, deliverAll, ht]
  | ok target =>
      cases hd : deliver settings target words progress with
      | error failure =>
          refine .inl ⟨failure, ?_, .inr (deliver_eq_error ht (isUsable_target hu ht) hd)⟩
          simp only [outcome, deliverAll, ht, hd]
      | ok delivered =>
          cases hs : deliverSymbols invocation.symbols labels delivered with
          | error failure =>
              obtain ⟨error, rfl⟩ := deliverSymbols_eq_error hu.symbols hs
              refine .inr (.inl ⟨target, delivered, error, rfl, hd, ?_⟩)
              simp only [outcome, deliverAll, ht, hd, hs]
          | ok last =>
              refine .inr (.inr ?_)
              simp only [outcome, deliverAll, ht, hd, hs]
              rfl

/-! ## Runs -/

/-- A run that comes to no assembly has wrong settings or a wrong definition of a label. -/
theorem Invocation.run_of_none (h : invocation.assembly? env tree = none) :
    (∃ failure, (invocation.settings env).validate = .error failure ∧
      invocation.run env tree =
        (Progress.start ⟨invocation.verbose, false⟩ tree).fail failure) ∨
    ∃ error : UsageError, invocation.run env tree = error.outcome tree := by
  rw [assembly?] at h
  cases hv : (invocation.settings env).validate with
  | error failure =>
      refine .inl ⟨failure, rfl, ?_⟩
      simp only [run, hv]
  | ok =>
      cases hd : invocation.defines.mapM Define.parse with
      | ok defines => simp [hv, hd] at h
      | error error =>
          refine .inr ⟨error, ?_⟩
          simp only [run, hv, hd]

theorem Invocation.run_of_result_error {assembly : Assembly}
    (ha : invocation.assembly? env tree = some assembly) (hr : assembly.result = .error failure) :
    invocation.run env tree = ((invocation.begin env tree).note assembly.events).fail failure := by
  rw [run_of_assembly ha, conclude]
  simp only [hr]

theorem Invocation.run_of_result_ok {assembly : Assembly}
    (ha : invocation.assembly? env tree = some assembly) (hr : assembly.result = .ok words) :
    invocation.words? env tree = some words ∧
      invocation.run env tree = deliverAll invocation (invocation.settings env) words
        assembly.assembler.labels ((invocation.begin env tree).note assembly.events) := by
  constructor
  · simp [words?, ha, hr, Except.toOption]
  · rw [run_of_assembly ha, conclude]
    simp only [hr]

/-- A run that fails before it delivers anything has told at most that it began. -/
theorem fail_of_begin (invocation : Invocation) (env : Environment) (tree : Tree)
    (events : List Event) (failure : Failure) :
    let outcome := ((invocation.begin env tree).note events).fail failure
    outcome.tree = tree ∧ outcome.stdout = (invocation.begin env tree).stdout := by
  simp

/-- What a run of an invocation leaves.  Either it has changed no file, and told at most that it
began; or it could not write the symbol list, and has delivered the output; or it has succeeded. -/
theorem Invocation.run_cases (hu : invocation.IsUsable) (env : Environment) (tree : Tree) :
    let outcome := invocation.run env tree
    (outcome.tree = tree ∧
      (outcome.stdout = [] ∨ outcome.stdout = (invocation.begin env tree).stdout)) ∨
    (outcome.exit = .ioError ∧ ∃ target words,
      invocation.target (invocation.settings env) = .ok target ∧
      invocation.words? env tree = some words ∧
      (outcome.tree = tree ∨ target ≠ .dash ∧ ∃ data,
        outputData (invocation.settings env) words = .ok data ∧
        tree.put target.text data = .ok outcome.tree)) ∨
    outcome.exit = .success := by
  intro outcome
  cases ha : invocation.assembly? env tree with
  | none =>
      left
      rcases run_of_none ha with ⟨failure, -, hrun⟩ | ⟨error, hrun⟩
      · exact ⟨congrArg Outcome.tree hrun, .inl (congrArg Outcome.stdout hrun)⟩
      · exact ⟨congrArg Outcome.tree hrun, .inl (congrArg Outcome.stdout hrun)⟩
  | some assembly =>
      cases hr : assembly.result with
      | error failure =>
          left
          obtain ⟨htree, hstdout⟩ := fail_of_begin invocation env tree assembly.events failure
          rw [← run_of_result_error ha hr] at htree hstdout
          exact ⟨htree, .inr hstdout⟩
      | ok words =>
          obtain ⟨hwords, hrun⟩ := run_of_result_ok ha hr
          rcases deliverAll_cases hu (invocation.settings env) words assembly.assembler.labels
            ((invocation.begin env tree).note assembly.events) with
            ⟨failure, hfail, -⟩ | ⟨target, delivered, error, ht, hd, hfail⟩ | hsuccess
          · left
            obtain ⟨htree, hstdout⟩ := fail_of_begin invocation env tree assembly.events failure
            rw [← hfail, ← hrun] at htree hstdout
            exact ⟨htree, .inr hstdout⟩
          · right
            left
            have hwritten := deliver_eq_ok hd
            rw [Progress.tree_note, tree_begin] at hwritten
            have houtcome : outcome = delivered.fail (.file error) := hrun.trans hfail
            rw [houtcome]
            exact ⟨rfl, target, words, ht, hwords, hwritten⟩
          · right
            right
            rw [← hrun] at hsuccess
            exact hsuccess

/-- What asks for no program is answered, or refused without a word on the standard output. -/
theorem exit_run_of_ne {arguments : List String} (env : Environment)
    (h : ∀ invocation, Request.ofArguments tree arguments ≠ .ok (.assemble invocation)) :
    let outcome := run arguments env tree
    outcome.exit = .success ∨
      outcome.stdout = [] ∧ (outcome.exit = .usageError ∨ outcome.exit = .givenUp) := by
  intro outcome
  cases hrequest : Request.ofArguments tree arguments with
  | error refusal =>
      right
      have houtcome : outcome = refusal.outcome tree := by simp only [outcome, run, hrequest]
      rw [houtcome]
      cases refusal with
      | usage error => exact ⟨rfl, .inl rfl⟩
      | unusablePath => exact ⟨rfl, .inr rfl⟩
  | ok request =>
      cases request with
      | version => exact .inl (by simp only [outcome, run, hrequest])
      | help => exact .inl (by simp only [outcome, run, hrequest])
      | assemble invocation => exact absurd hrequest (h invocation)

end StackAssembler.Command

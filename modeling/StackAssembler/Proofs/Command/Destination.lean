import StackAssembler.Proofs.Command.Effects

/-!
# The standard output and files

The words of a program go to the standard output or to a file, and it is the same bytes that are
put there.  A verbose run tells on the standard output what it does, so there the bytes of the
program stand between lines; a file holds them alone, unless the symbol list goes to the same file.

## Main definitions

* `Invocation.to`: an invocation with another output.
* `told`: what a verbose run tells on the standard output.
-/

namespace StackAssembler.Command

variable {invocation : Invocation} {settings : Settings} {words : List Int} {target : Path}
variable {progress later delivered : Progress} {labels : LabelTable} {tree : Tree}
variable {env : Environment}

/-! ## What is told -/

/-- The bytes of a line that a run tells on the standard output. -/
def told (verbose : Bool) (line : String) : List UInt8 :=
  if verbose then Encoding.Utf8.encode (String.join [Text.plain line, "\n"]).toList else []

/-- What is told about a symbol list. -/
def toldSymbols (verbose : Bool) : Option String → List UInt8
  | none => []
  | some symbols =>
    told verbose (String.join ["Wrote symbols to ", (Path.ofString symbols).text])

@[simp] theorem told_false (line : String) : told false line = [] := rfl

@[simp] theorem toldSymbols_false (symbols : Option String) : toldSymbols false symbols = [] := by
  cases symbols <;> rfl

namespace Progress

variable (progress : Progress)

@[simp] theorem verbosity_put (data : List UInt8) :
    (progress.put data).verbosity = progress.verbosity := rfl

@[simp] theorem verbosity_say (line : String) :
    (progress.say line).verbosity = progress.verbosity := by
  rw [say]
  split <;> rfl

@[simp] theorem verbosity_note (events : List Event) :
    (progress.note events).verbosity = progress.verbosity := by
  rw [note]
  split <;> rfl

@[simp] theorem stdout_put (data : List UInt8) :
    (progress.put data).stdout = progress.stdout ++ data := rfl

@[simp] theorem stdout_say (line : String) :
    (progress.say line).stdout = progress.stdout ++ told progress.verbosity.verbose line := by
  rw [say, told]
  split
  · rfl
  · rw [List.append_nil]

@[simp] theorem stdout_note (events : List Event) :
    (progress.note events).stdout = progress.stdout := by
  rw [note]
  split <;> rfl

@[simp] theorem stdout_finish : progress.finish.stdout = progress.stdout := rfl

@[simp] theorem stdout_fail (failure : Failure) :
    (progress.fail failure).stdout = progress.stdout := rfl

theorem exit_fail_ne_success (failure : Failure) : (progress.fail failure).exit ≠ .success := by
  cases failure <;> exact nofun

end Progress

@[simp] theorem verbosity_begin (invocation : Invocation) (env : Environment) (tree : Tree) :
    (invocation.begin env tree).verbosity.verbose = invocation.verbose := by
  rw [Invocation.begin, Progress.verbosity_say]
  rfl

theorem stdout_begin (invocation : Invocation) (env : Environment) (tree : Tree) :
    (invocation.begin env tree).stdout = told invocation.verbose
      (String.join ["Assembling ", (Path.ofString invocation.input).text, "..."]) := by
  rw [Invocation.begin, Progress.stdout_say]
  rfl

theorem stdout_deliverSymbols {symbols : Option String}
    (h : deliverSymbols symbols labels progress = .ok later) :
    later.stdout = progress.stdout ++ toldSymbols progress.verbosity.verbose symbols := by
  cases symbols with
  | none =>
      cases h
      rw [toldSymbols, List.append_nil]
  | some symbols =>
      rw [deliverSymbols] at h
      cases hw : progress.tree.writeSymbols (Path.ofString symbols).text labels with
      | error failure => simp [hw, bind, Except.bind] at h
      | ok written =>
          simp only [hw, bind, Except.bind, pure, Except.pure, Except.ok.injEq] at h
          rw [← h]
          simp [toldSymbols]

/-! ## One program, two outputs -/

/-- The invocation with another output. -/
def Invocation.to (invocation : Invocation) (output : String) : Invocation :=
  { invocation with output := some output }

/-- A run that comes to the words of its program goes on to deliver them. -/
theorem exists_run_eq_deliverAll (h : invocation.words? env tree = some words) :
    ∃ events labels, ∀ output, (invocation.to output).run env tree =
      deliverAll (invocation.to output) (invocation.settings env) words labels
        ((invocation.begin env tree).note events) := by
  cases ha : invocation.assembly? env tree with
  | none => simp [Invocation.words?, ha] at h
  | some assembly =>
      cases hr : assembly.result with
      | error failure => simp [Invocation.words?, ha, hr, Except.toOption] at h
      | ok result =>
          obtain rfl : result = words := by
            simpa [Invocation.words?, ha, hr, Except.toOption] using h
          refine ⟨assembly.events, assembly.assembler.labels, fun output => ?_⟩
          have hto : (invocation.to output).assembly? env tree = some assembly := ha
          rw [Invocation.run_of_assembly hto, conclude]
          simp only [hr]
          rfl

/-- After the words only the symbol list is left to be delivered. -/
theorem deliverAll_of_deliver (labels : LabelTable)
    (htarget : invocation.target settings = .ok target)
    (hd : deliver settings target words progress = .ok delivered) :
    let outcome := deliverAll invocation settings words labels progress
    outcome.stdout = delivered.stdout ++
        (if outcome.exit = .success then
          toldSymbols delivered.verbosity.verbose invocation.symbols else []) ∧
      Tree.AgreesOff (invocation.symbols.map Path.ofString).toList delivered.tree outcome.tree ∧
      (invocation.symbols = none → outcome.exit = .success) := by
  intro outcome
  -- The exit code is asked for in the statement, so each case finds the whole outcome first.
  cases hs : deliverSymbols invocation.symbols labels delivered with
  | error failure =>
      have hfail : outcome = delivered.fail failure := by
        simp only [outcome, deliverAll, htarget, hd, hs]
      have hsome : invocation.symbols ≠ none := by
        intro hnone
        rw [hnone] at hs
        cases hs
      rw [hfail, if_neg (Progress.exit_fail_ne_success _ failure), List.append_nil]
      exact ⟨rfl, .refl _ _, fun hnone => absurd hnone hsome⟩
  | ok last =>
      have hfinish : outcome = (last.note [.labelsDefined labels.size]).finish := by
        simp only [outcome, deliverAll, htarget, hd, hs]
      have hexit : outcome.exit = .success := by rw [hfinish, Progress.finish]
      rw [if_pos hexit]
      refine ⟨?_, ?_, fun _ => hexit⟩
      · rw [hfinish, Progress.stdout_finish, Progress.stdout_note, stdout_deliverSymbols hs]
      · rw [hfinish, Progress.tree_finish, Progress.tree_note]
        exact agreesOff_deliverSymbols hs

/-- On the standard output there are the bytes of the program, and what is told about the symbol
list if that is written. -/
theorem stdout_deliverAll_dash (invocation : Invocation) (settings : Settings) (words : List Int)
    (labels : LabelTable) (progress : Progress) :
    let outcome := deliverAll (invocation.to "-") settings words labels progress
    outcome.stdout = progress.stdout ++ (outputData settings words).toOption.getD [] ++
      if outcome.exit = .success then
        toldSymbols progress.verbosity.verbose invocation.symbols else [] := by
  intro outcome
  have hdash : Path.ofString "-" = .dash := by decide +kernel
  have htarget : (invocation.to "-").target settings = .ok .dash := congrArg Except.ok hdash
  cases ho : outputData settings words with
  | error failure =>
      have hfail : outcome = progress.fail failure := by
        simp only [outcome, deliverAll, htarget, deliver_dash, ho, Except.map]
      simp [hfail, Progress.exit_fail_ne_success, Except.toOption]
  | ok data =>
      have hd : deliver settings .dash words progress = .ok (progress.put data) := by
        rw [deliver_dash, ho]
        rfl
      obtain ⟨hstdout, -, -⟩ := deliverAll_of_deliver labels htarget hd
      exact hstdout

/-- Words without bytes are not delivered. -/
theorem exists_deliver_eq_error (target : Path) (progress : Progress) {failure : Failure}
    (ho : outputData settings words = .error failure) :
    ∃ failure, deliver settings target words progress = .error failure := by
  by_cases hdash : target = .dash
  · rw [hdash, deliver_dash, ho]
    exact ⟨failure, rfl⟩
  · have htree := tree_deliver settings words progress hdash
    cases hd : deliver settings target words progress with
    | error failure => exact ⟨failure, rfl⟩
    | ok later => simp [hd, ho, Except.map, bind, Except.bind] at htree

/-- The bytes of words are delivered if they can be written. -/
theorem exists_deliver_eq_ok (hne : target ≠ .dash) {data : List UInt8}
    (ho : outputData settings words = .ok data)
    (hput : progress.tree.put target.text data = .ok tree) :
    ∃ later, deliver settings target words progress = .ok later ∧ later.tree = tree := by
  have htree := tree_deliver settings words progress hne
  cases hd : deliver settings target words progress with
  | error failure => simp [hd, ho, hput, Except.map, bind, Except.bind] at htree
  | ok later =>
      simp only [hd, ho, hput, Except.map, bind, Except.bind, Except.ok.injEq] at htree
      exact ⟨later, rfl, htree⟩

/-- At the place of the file there are the bytes of the program, if the symbol list goes
elsewhere. -/
theorem get?_deliverAll_file {file : String} {place : Place} (invocation : Invocation)
    (settings : Settings) (words : List Int) (labels : LabelTable)
    (hne : Path.ofString file ≠ .dash)
    (hplace : progress.tree.locate (Path.ofString file).text = .ok place)
    (hnode : progress.tree.get? place ≠ some .directory)
    (hsymbols : ∀ symbols, invocation.symbols = some symbols →
      ¬ progress.tree.SamePlace symbols file) :
    (deliverAll (invocation.to file) settings words labels progress).tree.get? place =
      ((outputData settings words).toOption.map Node.file).or (progress.tree.get? place) := by
  have hn := Path.isNormal_ofString file
  have htarget : (invocation.to file).target settings = .ok (Path.ofString file) := rfl
  have hsame : (invocation.to file).symbols = invocation.symbols := rfl
  simp only [deliverAll, htarget, hsame]
  cases ho : outputData settings words with
  | error failure =>
      obtain ⟨failure, hd⟩ : ∃ failure, deliver settings (Path.ofString file) words progress =
          .error failure := exists_deliver_eq_error _ _ ho
      simp [hd, Except.toOption]
  | ok data =>
      have hput := Tree.put_of_locate hn hplace hnode data
      obtain ⟨delivered, hd, htree⟩ := exists_deliver_eq_ok hne ho hput
      have hfirst := htree ▸ Tree.agreesOff_of_put hn hput
      have hget := htree ▸ Tree.get?_of_put hn hput hplace
      simp only [hd, Except.toOption, Option.map_some, Option.some_or]
      cases hs : deliverSymbols invocation.symbols labels delivered with
      | error failure => exact hget
      | ok last =>
          simp only [Progress.tree_finish, Progress.tree_note]
          rw [(agreesOff_deliverSymbols hs).other place ?_, hget]
          intro path hpath hlocate
          obtain ⟨symbols, hsome, rfl⟩ : ∃ symbols, invocation.symbols = some symbols ∧
              Path.ofString symbols = path := by simpa using hpath
          exact hsymbols symbols hsome
            ⟨place, (hfirst.locate_eq_ok_iff ..).1 hlocate, hplace⟩

end StackAssembler.Command

import StackAssembler.Proofs.Command.Destination

/-!
# Outputs that mean the standard output

The output on the command line is a path, and it is the path in normal form that decides where the
words go.  So every text that comes to a lone dash stands for the standard output, and a file of
that name cannot be written to by adding a dot and a slash.  All other texts lead to files, and
nothing of the words is on the standard output then.

## Main definitions

* `Path.NamesDash`: the texts that come to a lone dash.
-/

namespace StackAssembler

namespace Path

/-- A text that does not begin with a slash, and whose components between slashes are a lone dash
besides empty ones and single dots. -/
def NamesDash (text : String) : Prop :=
  text.toList.head? ≠ some '/' ∧
    (text.toList.splitOn '/').filter (fun part => part ≠ [] ∧ part ≠ ['.']) = [['-']]

instance (text : String) : Decidable (NamesDash text) := inferInstanceAs (Decidable (_ ∧ _))

/-- **These are the texts of the path that stands for the standard output.** -/
theorem ofString_eq_dash_iff (text : String) : ofString text = dash ↔ NamesDash text := by
  have hroot : (ofString text).root = "" ↔ text.toList.head? ≠ some '/' := by
    simp only [ofString]
    cases text.toList with
    | nil => simp
    | cons c rest =>
        by_cases hc : c = '/'
        · have hcount : (((c :: rest).takeWhile (· == '/')).length = 0) = False := by simp [hc]
          simp only [hcount, if_false]
          split <;> simp [hc]
        · simp [hc]
  rw [NamesDash, ← hroot, ← cut_eq_splitOn]
  simp only [ofString, dash, mk.injEq]

end Path

namespace Command

variable {invocation : Invocation} {settings : Settings} {words : List Int} {target : Path}
variable {progress delivered : Progress} {labels : LabelTable} {tree written : Tree}
variable {env : Environment} {data : List UInt8}

/-- The line that tells that words have been written. -/
def wroteLine (words : List Int) (data : List UInt8) (path : String) : String :=
  String.join
    ["Wrote ", toString words.length, " words (", toString data.length, " bytes) to ", path]

/-- What is written to a file is counted and told. -/
theorem exists_writeOutput_eq_ok {path : String} (ho : outputData settings words = .ok data)
    (hput : tree.put path data = .ok written) :
    ∃ event, writeOutput tree path settings words = .ok ⟨written, data.length, event⟩ := by
  rw [outputData] at ho
  rw [writeOutput]
  split at ho
  · next hbinary =>
      rw [if_pos hbinary, Tree.writeImage, ho]
      simp [bind, Except.bind, hput, pure, Except.pure]
  · next hlisting =>
      rw [if_neg hlisting, Tree.writeListing]
      cases hl : Listing.ofWordsNamed settings.format words with
      | error failure => simp [hl, bind, Except.bind] at ho
      | ok text =>
          simp only [hl, bind, Except.bind, pure, Except.pure, Except.ok.injEq] at ho
          subst ho
          simp [bind, Except.bind, hput, pure, Except.pure]

/-- Words that can be written to their file are delivered, and nothing of them is told but how many
they are. -/
theorem exists_deliver_of_put (hne : target ≠ .dash) (ho : outputData settings words = .ok data)
    (hput : progress.tree.put target.text data = .ok written) :
    ∃ delivered, deliver settings target words progress = .ok delivered ∧
      delivered.tree = written ∧ delivered.verbosity = progress.verbosity ∧
      delivered.stdout = progress.stdout ++
        told progress.verbosity.verbose (wroteLine words data target.text) := by
  obtain ⟨event, hw⟩ := exists_writeOutput_eq_ok ho hput
  have hd : deliver settings target words progress =
      .ok (({ progress with tree := written }.note [event]).say
        (wroteLine words data target.text)) := by
    rw [deliver, if_neg hne]
    simp [hw, bind, Except.bind, pure, Except.pure, wroteLine]
  exact ⟨_, hd, by simp, by simp, by simp⟩

/-- **Where the words go is decided by the path in normal form.**  With an output that comes to a
lone dash the words are on the standard output, between what a verbose run tells, and no file is
written but the symbol list.  With any other output that leads to a place for a file the words are
there, unless the symbol list goes there too, and on the standard output there is only what a
verbose run tells.  Words that have no bytes go nowhere. -/
theorem output_of_run {arguments : List String} {output : String}
    (hrequest : Request.ofArguments tree arguments = .ok (.assemble invocation))
    (houtput : invocation.output = some output)
    (hwords : invocation.words? env tree = some words) :
    let outcome := run arguments env tree
    let path := (Path.ofString output).text
    let began := told invocation.verbose
      (String.join ["Assembling ", (Path.ofString invocation.input).text, "..."])
    let listed := if outcome.exit = .success then
      toldSymbols invocation.verbose invocation.symbols else []
    (∀ failure, outputData (invocation.settings env) words = .error failure →
      outcome.stdout = began ∧ outcome.tree = tree) ∧
    ∀ data, outputData (invocation.settings env) words = .ok data →
      (Path.NamesDash output →
        outcome.stdout = began ++ data ++ listed ∧
        Tree.AgreesOff (invocation.symbols.map Path.ofString).toList tree outcome.tree ∧
        (invocation.symbols = none → outcome.exit = .success)) ∧
      (¬ Path.NamesDash output → ∀ place, tree.locate path = .ok place →
        tree.get? place ≠ some .directory →
        outcome.stdout = began ++ told invocation.verbose (wroteLine words data path) ++ listed ∧
        ((∀ symbols, invocation.symbols = some symbols → ¬ tree.SamePlace symbols output) →
          outcome.tree.get? place = some (.file data)) ∧
        (invocation.symbols = none → outcome.exit = .success)) := by
  intro outcome path began listed
  have hto : invocation.to output = invocation := by
    rw [Invocation.to, ← houtput]
  obtain ⟨events, labels, hrun⟩ := exists_run_eq_deliverAll hwords
  have houtcome : outcome = deliverAll invocation (invocation.settings env) words labels
      ((invocation.begin env tree).note events) := by
    have hdeliver := hrun output
    rw [hto] at hdeliver
    simp only [outcome, run, hrequest, hdeliver]
  have htarget : invocation.target (invocation.settings env) = .ok (Path.ofString output) := by
    rw [Invocation.target, houtput]
  have hstdout : ((invocation.begin env tree).note events).stdout = began := by
    rw [Progress.stdout_note, stdout_begin]
  have htree : ((invocation.begin env tree).note events).tree = tree := by simp
  have hverbose : ((invocation.begin env tree).note events).verbosity.verbose =
      invocation.verbose := by simp
  generalize (invocation.begin env tree).note events = start at houtcome hstdout htree hverbose
  refine ⟨fun failure ho => ?_, fun data ho => ⟨fun hnames => ?_, ?_⟩⟩
  · obtain ⟨failure, hd⟩ := exists_deliver_eq_error (Path.ofString output) start ho
    have hfail : outcome = start.fail failure := by
      simp only [houtcome, deliverAll, htarget, hd]
    rw [hfail, Progress.stdout_fail, Progress.tree_fail]
    exact ⟨hstdout, htree⟩
  · have hd : deliver (invocation.settings env) (Path.ofString output) words start =
        .ok (start.put data) := by
      rw [(Path.ofString_eq_dash_iff output).2 hnames, deliver_dash, ho]
      rfl
    have hends := deliverAll_of_deliver labels htarget hd
    rw [← houtcome, Progress.stdout_put, Progress.verbosity_put, hstdout, hverbose] at hends
    rw [← htree]
    exact hends
  · intro hnames place hplace hnode
    have hne : Path.ofString output ≠ .dash := mt (Path.ofString_eq_dash_iff output).1 hnames
    subst htree
    have hput := Tree.put_of_locate (Path.isNormal_ofString output) hplace hnode data
    obtain ⟨delivered, hd, -, hverbosity, htold⟩ := exists_deliver_of_put hne ho hput
    obtain ⟨hends, -, hexit⟩ := deliverAll_of_deliver labels htarget hd
    rw [← houtcome, hverbosity, htold, hstdout, hverbose] at hends
    refine ⟨hends, fun hsymbols => ?_, houtcome ▸ hexit⟩
    have hget := get?_deliverAll_file invocation (invocation.settings env) words labels hne hplace
      hnode hsymbols
    rw [hto, ← houtcome, ho] at hget
    exact hget

/-- A dot and a slash before the name of a file change nothing. -/
theorem output_of_run_dotted :
    let tree : Tree := ⟨[], [(["a.sm".toList], .file [0x31])]⟩
    let env : Environment := ⟨none, none, none, none⟩
    let outcome := run ["a.sm", "-o", "./a.out"] env tree
    outcome.stdout = [] ∧ outcome.tree.get? ["a.out".toList] = some (.file [1, 0, 0, 0]) ∧
      outcome.exit = .success := by
  intro tree env outcome
  let invocation : Invocation := ⟨"a.sm", some "./a.out", none, none, none, none, [], false⟩
  have hrequest : Request.ofArguments tree ["a.sm", "-o", "./a.out"] =
      .ok (.assemble invocation) := by decide +kernel
  have hwords : invocation.words? env tree = some [1] := by decide +kernel
  have hdata : outputData (invocation.settings env) [1] = .ok [1, 0, 0, 0] := by decide +kernel
  have hnames : ¬ Path.NamesDash "./a.out" := by decide +kernel
  have hplace : tree.locate (Path.ofString "./a.out").text = .ok ["a.out".toList] := by
    decide +kernel
  have hnode : tree.get? ["a.out".toList] ≠ some .directory := by decide +kernel
  obtain ⟨-, hwritten⟩ := output_of_run hrequest rfl hwords
  obtain ⟨hstdout, hfile, hexit⟩ := (hwritten _ hdata).2 hnames _ hplace hnode
  refine ⟨?_, hfile nofun, hexit rfl⟩
  rw [hexit rfl] at hstdout
  exact hstdout

/-- With a dot and a slash before it a dash still is the standard output, though a file of that name
could be written. -/
theorem words_on_stdout_of_dotted_dash :
    let tree : Tree := ⟨[], [(["a.sm".toList], .file [0x31])]⟩
    let env : Environment := ⟨none, none, none, none⟩
    let outcome := run ["a.sm", "-o", "./-"] env tree
    ("./-" ≠ "-" ∧ tree.locate "./-" = .ok [['-']] ∧ tree.get? [['-']] = none) ∧
      outcome.stdout = [1, 0, 0, 0] ∧ outcome.tree = tree ∧ outcome.exit = .success := by
  decide +kernel

end Command

end StackAssembler

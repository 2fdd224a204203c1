import StackAssembler.Command.Run
import StackAssembler.Proofs.Files.Tree

/-!
# What a run changes

A run of the command writes to at most two paths: to its target, unless that is the standard output,
and to the path of the symbol list, if one is asked for.  Everything that is not at one of these
places stays as it is, however the run ends.  In particular the input stays, unless one of the two
leads to it.  The default output leads to the input only if it is the input, which then has the
suffix already.

## Main definitions

* `Invocation.destinations`: the paths to which a run may write.
* `Invocation.assembly?`, `Invocation.words?`: what a run comes to before it writes.
-/

namespace StackAssembler.Command

/-! ## Telling the user -/

namespace Progress

variable (progress : Progress)

@[simp] theorem tree_start (verbosity : Verbosity) (tree : Tree) :
    (start verbosity tree).tree = tree := rfl

@[simp] theorem tree_say (line : String) : (progress.say line).tree = progress.tree := by
  rw [say]
  split <;> rfl

@[simp] theorem tree_note (events : List Event) : (progress.note events).tree = progress.tree := by
  rw [note]
  split <;> rfl

@[simp] theorem tree_finish : progress.finish.tree = progress.tree := rfl

@[simp] theorem tree_fail (failure : Failure) : (progress.fail failure).tree = progress.tree := rfl

end Progress

@[simp] theorem tree_outcome_refusal (refusal : Refusal) (tree : Tree) :
    (refusal.outcome tree).tree = tree := by
  cases refusal <;> rfl

/-! ## Delivering -/

variable {invocation : Invocation} {settings : Settings} {words : List Int} {target : Path}
variable {progress later : Progress} {labels : LabelTable} {tree : Tree}

/-- What is written to a file is what the settings ask for. -/
theorem tree_writeOutput (tree : Tree) (path : String) (settings : Settings) (words : List Int) :
    (writeOutput tree path settings words).map Written.tree =
      outputData settings words >>= tree.put path := by
  rw [writeOutput, outputData]
  split
  · rw [Tree.writeImage]
    cases Image.ofWordsNamed settings.byteOrder words with
    | error failure => rfl
    | ok data => cases hp : tree.put path data <;> simp [bind, Except.bind, Except.map, hp]; rfl
  · rw [Tree.writeListing]
    cases Listing.ofWordsNamed settings.format words with
    | error failure => rfl
    | ok text =>
        cases hp : tree.put path (Encoding.Utf8.encode text) <;>
          simp [bind, Except.bind, pure, Except.pure, Except.map, hp]

/-- On the standard output the words appear as the settings ask. -/
theorem deliver_dash (settings : Settings) (words : List Int) (progress : Progress) :
    deliver settings .dash words progress = (outputData settings words).map progress.put := by
  rw [deliver, if_pos rfl]
  cases outputData settings words <;> rfl

/-- Words that are delivered to a file are written to it as the settings ask. -/
theorem tree_deliver (settings : Settings) (words : List Int) (progress : Progress)
    (hne : target ≠ .dash) :
    (deliver settings target words progress).map Progress.tree =
      outputData settings words >>= progress.tree.put target.text := by
  rw [← tree_writeOutput, deliver, if_neg hne]
  cases hw : writeOutput progress.tree target.text settings words with
  | error failure => simp [hw, bind, Except.bind, Except.map]
  | ok written => simp [hw, bind, Except.bind, pure, Except.pure, Except.map]

/-- Delivering keeps everything off the target. -/
theorem agreesOff_deliver (hn : target.IsNormal)
    (h : deliver settings target words progress = .ok later) :
    Tree.AgreesOff ([target].filter (· ≠ .dash)) progress.tree later.tree := by
  by_cases hne : target = .dash
  · rw [hne, deliver_dash] at h
    cases ho : outputData settings words with
    | error failure => simp [ho, Except.map] at h
    | ok data =>
        rw [ho] at h
        cases h
        exact .refl _ _
  · have htree := tree_deliver settings words progress hne
    cases ho : outputData settings words with
    | error failure => simp [h, ho, Except.map, bind, Except.bind] at htree
    | ok data =>
        simp only [h, ho, Except.map, bind, Except.bind] at htree
        simpa [hne] using Tree.agreesOff_of_put hn htree.symm

/-- Writing the symbol list keeps everything off its path. -/
theorem agreesOff_deliverSymbols {symbols : Option String}
    (h : deliverSymbols symbols labels progress = .ok later) :
    Tree.AgreesOff (symbols.map Path.ofString).toList progress.tree later.tree := by
  cases symbols with
  | none =>
      cases h
      exact .refl _ _
  | some symbols =>
      rw [deliverSymbols, Tree.writeSymbols] at h
      cases hp : progress.tree.put (Path.ofString symbols).text
          (Encoding.Utf8.encode (Symbols.ofTable labels)) with
      | error failure => simp [hp, bind, Except.bind] at h
      | ok written =>
          rw [hp] at h
          cases h
          simpa using Tree.agreesOff_of_put (Path.isNormal_ofString symbols) hp

/-! ## Runs -/

/-- The paths to which a run may write. -/
def Invocation.destinations (invocation : Invocation) (settings : Settings) : List Path :=
  (invocation.target settings).toOption.toList.filter (· ≠ .dash) ++
    (invocation.symbols.map Path.ofString).toList

theorem mem_destinations_iff (invocation : Invocation) (settings : Settings) (path : Path) :
    path ∈ invocation.destinations settings ↔
      (invocation.target settings = .ok path ∧ path ≠ .dash) ∨
        ∃ symbols, invocation.symbols = some symbols ∧ Path.ofString symbols = path := by
  rw [Invocation.destinations]
  cases invocation.target settings <;> cases invocation.symbols <;>
    simp [Except.toOption, eq_comm (a := path)]

theorem isNormal_target (h : invocation.target settings = .ok target) : target.IsNormal := by
  rw [Invocation.target] at h
  split at h
  · cases h
    exact Path.isNormal_ofString _
  · exact (Path.isNormal_ofString _).defaultOutput h

theorem agreesOff_deliverAll (invocation : Invocation) (settings : Settings) (words : List Int)
    (labels : LabelTable) (progress : Progress) :
    Tree.AgreesOff (invocation.destinations settings) progress.tree
      (deliverAll invocation settings words labels progress).tree := by
  rw [deliverAll, Invocation.destinations]
  cases ht : invocation.target settings with
  | error failure => exact .refl _ _
  | ok target =>
      simp only
      cases hd : deliver settings target words progress with
      | error failure => exact .refl _ _
      | ok delivered =>
          have hfirst := agreesOff_deliver (isNormal_target ht) hd
          simp only
          cases hs : deliverSymbols invocation.symbols labels delivered with
          | error failure => exact hfirst.mono (List.subset_append_left _ _)
          | ok last =>
              simp only [Progress.tree_finish, Progress.tree_note]
              exact hfirst.trans (agreesOff_deliverSymbols hs)

theorem agreesOff_conclude (invocation : Invocation) (settings : Settings) (progress : Progress)
    (assembly : Assembly) :
    Tree.AgreesOff (invocation.destinations settings) progress.tree
      (conclude invocation settings progress assembly).tree := by
  have hnote := Progress.tree_note progress assembly.events
  rw [conclude]
  split
  · rw [Progress.tree_fail, hnote]
    exact .refl _ _
  · exact hnote ▸ agreesOff_deliverAll invocation settings _ _ _

/-- The assembly that a run comes to, if the settings and the labels on the command line are
right. -/
def Invocation.assembly? (invocation : Invocation) (env : Environment) (tree : Tree) :
    Option Assembly :=
  let settings := invocation.settings env
  match settings.validate, invocation.defines.mapM Define.parse with
  | .ok (), .ok defines =>
    let assembler := defines.foldl (fun assembler entry => assembler.defineLabel entry.1 entry.2)
      (Assembler.new .empty settings.encoding Assembler.defaultFile)
    some (assembler.assembleFile tree invocation.input)
  | _, _ => none

/-- The words of the program, if a run comes to them. -/
def Invocation.words? (invocation : Invocation) (env : Environment) (tree : Tree) :
    Option (List Int) :=
  (invocation.assembly? env tree).bind fun assembly => assembly.result.toOption

/-- The beginning of a run that comes to an assembly. -/
def Invocation.begin (invocation : Invocation) (env : Environment) (tree : Tree) : Progress :=
  (Progress.start (invocation.verbosity (invocation.settings env)) tree).say
    (String.join ["Assembling ", (Path.ofString invocation.input).text, "..."])

@[simp] theorem tree_begin (invocation : Invocation) (env : Environment) (tree : Tree) :
    (invocation.begin env tree).tree = tree := by
  rw [Invocation.begin, Progress.tree_say, Progress.tree_start]

/-- What a run is that comes to an assembly. -/
theorem Invocation.run_of_assembly {env : Environment} {assembly : Assembly}
    (h : invocation.assembly? env tree = some assembly) :
    invocation.run env tree =
      conclude invocation (invocation.settings env) (invocation.begin env tree) assembly := by
  rw [assembly?] at h
  rw [run]
  cases hv : (invocation.settings env).validate with
  | error failure => simp [hv] at h
  | ok =>
      cases hd : invocation.defines.mapM Define.parse with
      | error error => simp [hv, hd] at h
      | ok defines =>
          simp only [hv, hd, Option.some.injEq] at h
          dsimp only
          rw [assembleWith, ← h]
          rfl

/-- A run that comes to no assembly changes nothing. -/
theorem Invocation.tree_run_of_none {env : Environment}
    (h : invocation.assembly? env tree = none) : (invocation.run env tree).tree = tree := by
  rw [assembly?] at h
  rw [run]
  cases hv : (invocation.settings env).validate with
  | error failure => rfl
  | ok =>
      cases hd : invocation.defines.mapM Define.parse with
      | error error => rfl
      | ok defines => simp [hv, hd] at h

/-- Neither does one that comes to no words. -/
theorem Invocation.tree_run_of_words {env : Environment} (h : invocation.words? env tree = none) :
    (invocation.run env tree).tree = tree := by
  cases ha : invocation.assembly? env tree with
  | none => exact tree_run_of_none ha
  | some assembly =>
      rw [run_of_assembly ha, conclude]
      cases hr : assembly.result with
      | error failure => simp
      | ok words => simp [words?, ha, hr, Except.toOption] at h

theorem Invocation.agreesOff_run (invocation : Invocation) (env : Environment) (tree : Tree) :
    Tree.AgreesOff (invocation.destinations (invocation.settings env)) tree
      (invocation.run env tree).tree := by
  cases ha : invocation.assembly? env tree with
  | none =>
      rw [tree_run_of_none ha]
      exact .refl _ _
  | some assembly =>
      have hconclude := agreesOff_conclude invocation (invocation.settings env)
        (invocation.begin env tree) assembly
      rwa [tree_begin, ← run_of_assembly ha] at hconclude

/-- **A run keeps everything that is at none of the places to which it may write.** -/
theorem agreesOff_run {arguments : List String} {env : Environment}
    (h : Request.ofArguments tree arguments = .ok (.assemble invocation)) :
    Tree.AgreesOff (invocation.destinations (invocation.settings env)) tree
      (run arguments env tree).tree := by
  rw [run, h]
  exact invocation.agreesOff_run env tree

/-- What asks for no program changes nothing. -/
theorem tree_run_of_ne {arguments : List String} {env : Environment}
    (h : ∀ invocation, Request.ofArguments tree arguments ≠ .ok (.assemble invocation)) :
    (run arguments env tree).tree = tree := by
  rw [run]
  dsimp only
  split
  · exact tree_outcome_refusal _ tree
  · rfl
  · rfl
  · next invocation hr => exact absurd hr (h invocation)

/-! ## The input -/

theorem Invocation.check_eq_ok_iff (tree : Tree) (line : Line) (invocation : Invocation) :
    Invocation.check tree line = .ok invocation ↔ ∃ input,
      (line.opts.forM fun opt =>
        Invocation.checkValue tree opt ((line.value? opt).getD "")) = .ok () ∧
      line.arguments = [input] ∧ Invocation.checkInput tree input = .ok () ∧
      invocation = .ofLine line input := by
  rw [check]
  cases line.opts.forM fun opt => checkValue tree opt ((line.value? opt).getD "") with
  | error refusal => simp [bind, Except.bind]
  | ok =>
      simp only [bind, Except.bind, true_and]
      cases line.arguments with
      | nil => simp
      | cons input extra =>
          simp only [List.cons.injEq, and_assoc, exists_eq_left']
          cases checkInput tree input with
          | error refusal => simp
          | ok => by_cases he : extra = [] <;> simp [he, pure, Except.pure, eq_comm]

/-- **What it takes for a command line to ask for a program.**  It can be taken apart and asks for
nothing else, the values of its options and the only argument pass their checks, and the invocation
is that of the line. -/
theorem request_eq_assemble_iff (tree : Tree) (arguments : List String) (invocation : Invocation) :
    Request.ofArguments tree arguments = .ok (.assemble invocation) ↔ ∃ line,
      Line.read arguments = .ok line ∧ line.opts.find? Opt.isEager = none ∧
      Invocation.check tree line = .ok invocation := by
  rw [Request.ofArguments]
  cases hl : Line.read arguments with
  | error error => simp [Except.mapError, bind, Except.bind]
  | ok line =>
      simp only [Except.mapError, bind, Except.bind, Except.ok.injEq, exists_eq_left']
      cases he : line.opts.find? Opt.isEager with
      | some opt => cases opt <;> simp [pure, Except.pure]
      | none =>
          cases Invocation.check tree line <;> simp [pure, Except.pure]

end StackAssembler.Command

import StackAssembler.Files.Assembly
import StackAssembler.Command.Define
import StackAssembler.Command.Invocation
import StackAssembler.Command.Report
import StackAssembler.Output.Writing
import StackAssembler.Settings
import StackAssembler.Text.ControlSequence

/-!
# Runs of the command

A run takes a command line, an environment and a file tree to an exit code, the texts on the
standard output and the standard error, and the file tree afterwards.  Everything that can be
checked before the program is read is checked first; the output is written before the symbol list,
and neither is touched unless the whole program could be assembled.
-/

namespace StackAssembler.Command

/-- How a run ends. -/
structure Outcome where
  exit : ExitCode
  stdout : List UInt8
  stderr : String
  tree : Tree

/-- What the user is told on the way. -/
structure Verbosity where
  /-- Progress is told on the standard output, and internal errors in detail. -/
  verbose : Bool
  /-- Events are told on the standard error. -/
  events : Bool
  deriving DecidableEq, Repr

/-- A run under way. -/
structure Progress where
  verbosity : Verbosity
  stdout : List UInt8
  stderr : String
  tree : Tree

namespace Progress

/-- A run that has not told anything yet. -/
def start (verbosity : Verbosity) (tree : Tree) : Progress := ⟨verbosity, [], "", tree⟩

/-- Puts bytes on the standard output. -/
def put (progress : Progress) (data : List UInt8) : Progress :=
  { progress with stdout := progress.stdout ++ data }

/-- Tells about progress, if that is wanted. -/
def say (progress : Progress) (line : String) : Progress :=
  if progress.verbosity.verbose then
    progress.put (Encoding.Utf8.encode (String.join [Text.plain line, "\n"]).toList)
  else progress

/-- The line of an event. -/
def eventLine (verbosity : Verbosity) (event : Event) : String :=
  String.join [if verbosity.verbose then "DEBUG: " else "", event.message, "\n"]

/-- Tells about events, if that is wanted. -/
def note (progress : Progress) (events : List Event) : Progress :=
  if progress.verbosity.events then
    { progress with
      stderr := progress.stderr ++ String.join (events.map (eventLine progress.verbosity)) }
  else progress

/-- The end of a run that succeeds. -/
def finish (progress : Progress) : Outcome :=
  ⟨.success, progress.stdout, progress.stderr, progress.tree⟩

/-- The end of a run that fails. -/
def fail (progress : Progress) (failure : Failure) : Outcome :=
  let code := exitCode failure
  let trace :=
    if progress.verbosity.verbose ∧ code = .internalError then String.join [traceHeading, "\n"]
    else ""
  let stderr := String.join [progress.stderr, Text.plain (report failure), "\n", trace]
  ⟨code, progress.stdout, stderr, progress.tree⟩

end Progress

/-- Lines, each with its newline. -/
def joinLines (lines : List String) : String :=
  String.join (lines.flatMap fun line => [line, "\n"])

/-- The end of a run whose command line is wrong. -/
def UsageError.outcome (error : UsageError) (tree : Tree) : Outcome :=
  let lines :=
    (if error.hasReminder then reminder else []) ++ [String.join ["Error: ", error.message]]
  ⟨.usageError, [], Text.plain (joinLines lines), tree⟩

/-- The end of a run whose command line is not carried out.  A run that is given up says nothing. -/
def Refusal.outcome (refusal : Refusal) (tree : Tree) : Outcome :=
  match refusal with
  | .usage error => error.outcome tree
  | .unusablePath => ⟨.givenUp, [], "", tree⟩

/-- The settings of a run: those of the environment, with what the command line says in their place.
An empty encoding says nothing. -/
def Invocation.settings (invocation : Invocation) (env : Environment) : Settings :=
  let settings := Settings.ofEnvironment env
  { settings with
    encoding := (invocation.encoding.filter (· != "")).getD settings.encoding
    format := invocation.format.getD settings.format
    byteOrder := invocation.byteOrder.getD settings.byteOrder }

/-- What the user of a run is told. -/
def Invocation.verbosity (invocation : Invocation) (settings : Settings) : Verbosity :=
  ⟨invocation.verbose, invocation.verbose || settings.logLevel == LogLevel.debug.name⟩

/-- The bytes of words in the form that the settings ask for. -/
def outputData (settings : Settings) (words : List Int) : Except Failure (List UInt8) :=
  if settings.format = Format.binary.name then Image.ofWordsNamed settings.byteOrder words
  else do
    let text ← Listing.ofWordsNamed settings.format words
    return Encoding.Utf8.encode text

/-- Writes words to a file in the form that the settings ask for. -/
def writeOutput (tree : Tree) (path : String) (settings : Settings) (words : List Int) :
    Except Failure Written :=
  if settings.format = Format.binary.name then tree.writeImage path settings.byteOrder words
  else tree.writeListing path settings.format words

/-- Where the words go: the path on the command line, or the default for the input. -/
def Invocation.target (invocation : Invocation) (settings : Settings) : Except Failure Path :=
  match invocation.output with
  | some output => .ok (Path.ofString output)
  | none => Path.defaultOutput (Path.ofString invocation.input) settings.format

/-- Delivers the words to their target. -/
def deliver (settings : Settings) (target : Path) (words : List Int) (progress : Progress) :
    Except Failure Progress :=
  if target = Path.dash then do
    return progress.put (← outputData settings words)
  else do
    let path := target.text
    let written ← writeOutput progress.tree path settings words
    let progress := { progress with tree := written.tree }.note [written.event]
    return progress.say (String.join
      ["Wrote ", toString words.length, " words (", toString written.bytes, " bytes) to ", path])

/-- Writes the symbol list, if one is asked for. -/
def deliverSymbols (symbols : Option String) (labels : LabelTable) (progress : Progress) :
    Except Failure Progress :=
  match symbols with
  | none => .ok progress
  | some symbols => do
    let path := (Path.ofString symbols).text
    let written ← progress.tree.writeSymbols path labels
    let progress := { progress with tree := written.tree }.note [written.event]
    return progress.say (String.join ["Wrote symbols to ", path])

/-- Delivers an assembled program. -/
def deliverAll (invocation : Invocation) (settings : Settings) (words : List Int)
    (labels : LabelTable) (progress : Progress) : Outcome :=
  match invocation.target settings with
  | .error failure => progress.fail failure
  | .ok target =>
    match deliver settings target words progress with
    | .error failure => progress.fail failure
    | .ok progress =>
      match deliverSymbols invocation.symbols labels progress with
      | .error failure => progress.fail failure
      | .ok progress => (progress.note [.labelsDefined labels.size]).finish

/-- Goes on when the program has been assembled, or has turned out to be wrong. -/
def conclude (invocation : Invocation) (settings : Settings) (progress : Progress)
    (assembly : Assembly) : Outcome :=
  let progress := progress.note assembly.events
  match assembly.result with
  | .error failure => progress.fail failure
  | .ok words => deliverAll invocation settings words assembly.assembler.labels progress

/-- Assembles the program of an invocation, with settings that are valid and labels that are defined
on the command line. -/
def assembleWith (invocation : Invocation) (settings : Settings) (defines : List (LabelName × Int))
    (tree : Tree) : Outcome :=
  let assembler := defines.foldl (fun assembler entry => assembler.defineLabel entry.1 entry.2)
    (Assembler.new .empty settings.encoding Assembler.defaultFile)
  let input := (Path.ofString invocation.input).text
  let progress := Progress.start (invocation.verbosity settings) tree
  let progress := progress.say (String.join ["Assembling ", input, "..."])
  conclude invocation settings progress (assembler.assembleFile tree invocation.input)

/-- Runs an invocation. -/
def Invocation.run (invocation : Invocation) (env : Environment) (tree : Tree) : Outcome :=
  let settings := invocation.settings env
  match settings.validate with
  | .error failure => (Progress.start ⟨invocation.verbose, false⟩ tree).fail failure
  | .ok () =>
    match invocation.defines.mapM Define.parse with
    | .error error => error.outcome tree
    | .ok defines => assembleWith invocation settings defines tree

/-- Runs the command. -/
def run (arguments : List String) (env : Environment) (tree : Tree) : Outcome :=
  let tell (lines : List String) : Outcome :=
    ⟨.success, Encoding.Utf8.encode (joinLines lines).toList, "", tree⟩
  match Request.ofArguments tree arguments with
  | .error refusal => refusal.outcome tree
  | .ok .version => tell [versionLine]
  | .ok .help => tell helpLines
  | .ok (.assemble invocation) => invocation.run env tree

/-- The paths at which a run may look: those on the command line, and the default outputs. -/
def pathsOf (arguments : List String) : List String :=
  match Line.read arguments with
  | .error _ => []
  | .ok line =>
    let inputs := line.arguments
    let defaults := inputs.flatMap fun input =>
      Format.all.filterMap fun format =>
        (Path.defaultOutput (Path.ofString input) format.name).toOption.map Path.text
    inputs ++ defaults ++ line.values .output ++ line.values .symbols

end StackAssembler.Command

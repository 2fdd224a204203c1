import StackAssembler.Command.Option

/-!
# Command lines

A command line is taken apart into the uses of options, in order, and the arguments.  Options may
stand anywhere; after two dashes there are only arguments.  A long option may have its value behind
an equals sign, and letters may be put together after one dash, where the first that takes a value
has the rest of the word for it, or else the next word.
-/

namespace StackAssembler.Command

/-- An option as it is used, with its value if it takes one. -/
structure Use where
  opt : Opt
  value : String
  deriving DecidableEq, Repr

/-- A command line. -/
structure Line where
  uses : List Use
  arguments : List String
  deriving DecidableEq, Repr

/-- What a word gives: uses that are complete, and perhaps an option, by the name it was called,
whose value is the next word. -/
structure WordUses where
  uses : List Use
  awaiting : Option (Opt × String)

namespace Line

/-- Reads letters that are put together. -/
def readLetters : List Char → Except UsageError WordUses
  | [] => .ok ⟨[], none⟩
  | c :: rest =>
    match Opt.ofLetter? c with
    | none => .error (.noSuchOption (Opt.shortName c) [])
    | some opt =>
      if opt.takesValue then
        if rest = [] then .ok ⟨[], some (opt, Opt.shortName c)⟩
        else .ok ⟨[⟨opt, String.ofList rest⟩], none⟩
      else do
        let more ← readLetters rest
        return { more with uses := ⟨opt, ""⟩ :: more.uses }

/-- Reads a long option, given its name and the value behind an equals sign. -/
def readLong (opt : Opt) (name : String) (value : Option String) : Except UsageError WordUses :=
  match opt.takesValue, value with
  | true, none => .ok ⟨[], some (opt, name)⟩
  | true, some value => .ok ⟨[⟨opt, value⟩], none⟩
  | false, none => .ok ⟨[⟨opt, ""⟩], none⟩
  | false, some _ => .error (.valueUnexpected name)

/-- Reads a word that starts with a dash. -/
def readWord (word : List Char) : Except UsageError WordUses :=
  let name := String.ofList (word.takeWhile (· != '='))
  let value :=
    if '=' ∈ word then some (String.ofList ((word.dropWhile (· != '=')).drop 1)) else none
  match Opt.ofLong? name with
  | some opt => readLong opt name value
  | none =>
    match word with
    | '-' :: '-' :: _ => .error (.noSuchOption name (Opt.guesses name))
    | _ => readLetters (word.drop 1)

/-- A word that is read as options. -/
def isOption (word : List Char) : Bool := word.head? == some '-' && 2 ≤ word.length

/-- A command line with more uses in front. -/
def withUses (uses : List Use) (line : Line) : Line := { line with uses := uses ++ line.uses }

/-- A command line with one more argument in front. -/
def withArgument (argument : String) (line : Line) : Line :=
  { line with arguments := argument :: line.arguments }

/-- Takes a command line apart. -/
def read : List String → Except UsageError Line
  | [] => .ok ⟨[], []⟩
  | word :: rest =>
    if word = "--" then .ok ⟨[], rest⟩
    else if isOption word.toList then
      match readWord word.toList with
      | .error error => .error error
      | .ok ⟨uses, none⟩ => (read rest).map (withUses uses)
      | .ok ⟨uses, some (opt, name)⟩ =>
        match rest with
        | [] => .error (.valueMissing name)
        | value :: rest => (read rest).map (withUses (uses ++ [⟨opt, value⟩]))
    else (read rest).map (withArgument word)

/-- The values that an option is given, in order. -/
def values (line : Line) (opt : Opt) : List String :=
  (line.uses.filter fun use => use.opt = opt).map Use.value

/-- The value that an option is given last. -/
def value? (line : Line) (opt : Opt) : Option String := (line.values opt).getLast?

/-- The options used, in the order of their first uses. -/
def opts (line : Line) : List Opt := (line.uses.map Use.opt).eraseDups

end Line

end StackAssembler.Command

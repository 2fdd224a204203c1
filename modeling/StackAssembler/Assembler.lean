import StackAssembler.Event
import StackAssembler.Lexeme
import StackAssembler.Machine.Word
import StackAssembler.Text.EditDistance

/-!
# Assembling

A program is assembled in a single pass, each of its words into one word of the machine: an
instruction into its opcode, a literal into its value, the definition of a label into a `nop`, and a
reference to a label into the label's address.  The address of a label is the number of the word
that defines it, counted from one, so a label must be defined before it is referred to.

An `Assembler` keeps labels that are defined before any program, and the labels of the last program.
A program that fails leaves no labels behind.
-/

namespace StackAssembler

/-- What a program has defined so far. -/
structure Scope where
  /-- The labels and their addresses. -/
  labels : LabelTable
  /-- Where the program defines its labels. -/
  origins : List (LabelName × Location)
  /-- The number of the next word. -/
  index : Nat
  deriving DecidableEq

namespace Scope

/-- The number of a program's first word. -/
def firstIndex : Nat := 1

/-- The scope in which nothing is defined. -/
def empty : Scope := ⟨.empty, [], firstIndex⟩

/-- The scope in which a program starts, with some labels already defined. -/
def start (predefined : LabelTable) : Scope := ⟨predefined, [], firstIndex⟩

/-- The scope for the next word. -/
def advance (scope : Scope) : Scope := { scope with index := scope.index + 1 }

/-- The most labels that are suggested. -/
def suggestionLimit : Nat := 3

/-- A label that may have been meant by a name. -/
def isSimilar (name label : LabelName) : Bool :=
  label.length ≤ name.length + 1 && name.length ≤ label.length + 1 &&
    Text.editDistance name label ≤ 2

/-- The first labels that may have been meant by a name. -/
def similar (scope : Scope) (name : LabelName) : List LabelName :=
  (scope.labels.names.filter (isSimilar name)).take suggestionLimit

/-- The word of an instruction. -/
def encodeInstruction (text : List Char) (location : Option Location) : Except Failure Int :=
  match Opcode.ofMnemonic? text with
  | some op => .ok op.number
  | none => .error (.program ⟨.unknownMnemonic text, location⟩)

/-- The word of a literal: its value, which must be a signed word. -/
def encodeInteger (text : List Char) (location : Option Location) : Except Failure Int :=
  let bad (flaw : LiteralFlaw) : Except Failure Int :=
    .error (.program ⟨.badLiteral text flaw, location⟩)
  if text = [] then bad .empty
  else if !text.all Char.isDigit then bad .notDecimal
  else if Text.digitLimit < text.length then .error (.internal (.tooManyDigits text.length))
  else
    let value : Int := Nat.ofDigitChars 10 text 0
    if Word.maxLiteral < value then bad .outOfRange else .ok (Word.wrap value)

/-- Defines the label of a text, which is the text less its last character, at the current word. -/
def define (scope : Scope) (text : List Char) (location : Option Location) :
    Except Failure Scope :=
  let name := text.dropLast
  if scope.labels.contains name then
    .error (.program ⟨.duplicateLabel name (scope.origins.lookup name), location⟩)
  else .ok
    { scope with
      labels := scope.labels.insert name scope.index
      origins := (location.toList.map fun l => (name, l)) ++ scope.origins }

/-- The address of the label of a text, which is the text less its first character. -/
def resolve (scope : Scope) (text : List Char) (location : Option Location) :
    Except Failure Int :=
  let name := text.tail
  match scope.labels.get? name with
  | some address => .ok address
  | none => .error (.program ⟨.undefinedLabel name (scope.similar name), location⟩)

/-- The word of a lexeme, and the scope with what it defines. -/
def encode (scope : Scope) (lexeme : Lexeme) : Except Failure (Int × Scope) :=
  match lexeme.kind with
  | .instruction => do return (← encodeInstruction lexeme.text lexeme.location, scope)
  | .integer => do return (← encodeInteger lexeme.text lexeme.location, scope)
  | .labelDefinition => do
    let scope ← scope.define lexeme.text lexeme.location
    return (Opcode.nop.number, scope)
  | .labelReference => do return (← scope.resolve lexeme.text lexeme.location, scope)

/-- The labels that one scope has more than an earlier one, as events. -/
def news (earlier later : Scope) : List Event :=
  (later.labels.entries.drop earlier.labels.size).map fun (name, address) =>
    .labelDefined name address

/-- How far a program has been assembled. -/
structure Progress where
  /-- The words so far. -/
  words : List Int
  /-- The scope reached. -/
  scope : Scope
  /-- What went wrong with the next word, if anything did. -/
  failure : Option Failure
  /-- The number of bytes of the program that have been read. -/
  bytesRead : Nat

/-- Assembles words until they end or one fails. -/
def assemble (scope : Scope) : Reading Token → Progress
  | .done k => ⟨[], scope, none, k⟩
  | .stopped failure k => ⟨[], scope, some failure, k⟩
  | .next token k rest =>
    match Lexeme.ofToken token >>= scope.encode with
    | .error failure => ⟨[], scope, some failure, k⟩
    | .ok (word, scope) =>
      let progress := assemble scope.advance rest
      { progress with words := word :: progress.words }

end Scope

/-- An assembler: its settings, and what its last program has defined. -/
structure Assembler where
  /-- Labels that every program finds defined. -/
  predefined : LabelTable
  /-- The encoding of programs that are given as bytes. -/
  encoding : String
  /-- The name of the text in messages. -/
  file : String
  /-- What the last program has defined. -/
  scope : Scope
  deriving DecidableEq

/-- What assembling a program gives. -/
structure Assembly where
  /-- The words of the program, or why there are none. -/
  result : Except Failure (List Int)
  /-- The assembler afterwards. -/
  assembler : Assembler
  /-- What there was to tell. -/
  events : List Event
  /-- How many bytes of the program have been read. -/
  bytesRead : Nat

namespace Assembler

/-- The encoding of programs unless another one is set. -/
def defaultEncoding : String := "utf-8"

/-- The name of a text unless another one is set. -/
def defaultFile : String := "<input>"

/-- Defines a label for all programs to come; an address that does not fit a word is wrapped. -/
def defineLabel (assembler : Assembler) (name : LabelName) (address : Int) : Assembler :=
  { assembler with predefined := assembler.predefined.insert name (Word.wrap address) }

/-- An assembler that has not assembled anything. -/
def new (labels : LabelTable) (encoding file : String) : Assembler :=
  labels.entries.foldl (fun assembler entry => assembler.defineLabel entry.1 entry.2)
    ⟨.empty, encoding, file, .empty⟩

/-- The labels of the last program. -/
def labels (assembler : Assembler) : LabelTable := assembler.scope.labels

/-- The number of the next word. -/
def index (assembler : Assembler) : Nat := assembler.scope.index

/-- The failed assembly after which nothing is defined. -/
def failed (assembler : Assembler) (failure : Failure) (events : List Event) (bytesRead : Nat) :
    Assembly :=
  ⟨.error failure, { assembler with scope := .empty }, events, bytesRead⟩

/-- Assembles bytes that are called by a name in messages. -/
def assembleBytes (assembler : Assembler) (bytes : List UInt8) (file : String) : Assembly :=
  let start := Scope.start assembler.predefined
  let progress := start.assemble (Source.tokens file assembler.encoding bytes)
  let events := start.news progress.scope
  match progress.failure with
  | some failure => assembler.failed failure events progress.bytesRead
  | none =>
    let labels := progress.scope.labels.size - assembler.predefined.size
    ⟨.ok progress.words, { assembler with scope := progress.scope },
      events ++ [.assembled file progress.words.length labels], progress.bytesRead⟩

/-- Assembles a program.  The name is for this program only; without one, that of the assembler is
used. -/
def assemble (assembler : Assembler) (source : Source) (file : Option String) : Assembly :=
  match source.toBytes assembler.encoding with
  | .ok bytes => assembler.assembleBytes bytes (file.getD assembler.file)
  | .error failure => assembler.failed failure [] 0

/-- Encodes a single word in the current scope.  The number of the next word stays, and a failure
changes nothing. -/
def encode (assembler : Assembler) (lexeme : Lexeme) :
    Except Failure (Int × Assembler × List Event) := do
  let (word, scope) ← assembler.scope.encode lexeme
  return (word, { assembler with scope }, assembler.scope.news scope)

end Assembler

end StackAssembler
